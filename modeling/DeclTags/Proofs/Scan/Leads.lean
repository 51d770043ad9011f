import DeclTags.Scan
import DeclTags.Proofs.Blanking
import DeclTags.Proofs.Outline
import DeclTags.Proofs.Place.Blanks
import DeclTags.Proofs.Place.Boundary

/-!
# From one place of a scan to the next

A scan of a line goes through places and states, and most of them do not
matter to what it finds. `Leads` says that a scan may as well go on at
another place, in another state, once it has found some tags; it composes,
so a stretch of a line can be dealt with as a whole. This module deals with
the stretches that a line is made of.

* A comment or a string is left behind byte by byte (`Leads.comment`,
  `Leads.string`), although the scan searches for its end in one go.
* A blank is left behind one character at a time (`Leads.blank`).
* A word is left behind as a whole (`Leads.word`), although the scan may walk
  through it byte by byte, looking for a keyword or for the start of a name
  at each of them. What it finds in the word, and the state it comes out in,
  is what the outline says.
-/

namespace DeclTags

open Utf8

/-- Is a declaration of a wanted kind? -/
def Rules.wants (rules : Rules) (t : Tag) : Bool := rules.kinds.contains t.kind

/-- What a state knows about declarations. -/
def State.outline (s : State) : Outline := ⟨s.phase, s.enclosing?⟩

/-- The state that has an outline and a mode. -/
def Outline.state (o : Outline) (mode : Mode) : State := ⟨o.phase, mode, o.enclosing?⟩

@[simp] theorem State.state_outline (s : State) : s.outline.state s.mode = s := rfl

/-- **The scan goes on as from another place**, in another state, having
found some tags. -/
structure Leads (rules : Rules) (line : Nat) (s : State) (p : Place) (found : List Tag)
    (t : State) (q : Place) : Prop where
  /-- Both scans end in one state. -/
  state_eq : (scanFrom rules line s p).1 = (scanFrom rules line t q).1
  /-- What the first finds is what was found and what the second finds. -/
  tags_eq : tagsOf (scanFrom rules line s p).2 = found ++ tagsOf (scanFrom rules line t q).2

/-- The end of a source adds no tag. -/
theorem tags_eq_tagsOf_scan (rules : Rules) (lines : List Bytes) :
    tags rules lines = tagsOf (scan rules lines).2.flatten := by
  have hclosing (s : State) : tagsOf s.closing = [] := by
    unfold State.closing
    cases s.enclosing? <;> rfl
  rw [tags, events, tagsOf_append, hclosing, List.append_nil]

theorem scanFrom_of_after_eq_nil {rules : Rules} {line : Nat} {s : State} {p : Place}
    (h : p.after = []) : scanFrom rules line s p = (s, []) := by
  rw [scanFrom, dif_pos h]

theorem scanFrom_of_after_ne_nil {rules : Rules} {line : Nat} {s : State} {p : Place}
    (h : p.after ≠ []) : scanFrom rules line s p
      = ((scanFrom rules line (s.step rules line p).state (s.step rules line p).place).1,
        (s.step rules line p).events
          ++ (scanFrom rules line (s.step rules line p).state (s.step rules line p).place).2) := by
  rw [scanFrom, dif_neg h]

namespace Leads

variable {rules : Rules} {line : Nat} {s t u : State} {p q r : Place} {xs ys : List Tag}

theorem refl (s : State) (p : Place) : Leads rules line s p [] s p := ⟨rfl, rfl⟩

theorem trans (h : Leads rules line s p xs t q) (h' : Leads rules line t q ys u r) :
    Leads rules line s p (xs ++ ys) u r := by
  refine ⟨h.state_eq.trans h'.state_eq, ?_⟩
  rw [h.tags_eq, h'.tags_eq, List.append_assoc]

/-- A step leads on. -/
theorem of_step {e : Step} (h : p.after ≠ []) (he : s.step rules line p = e) :
    Leads rules line s p (tagsOf e.events) e.state e.place := by
  subst he
  constructor
  · rw [scanFrom_of_after_ne_nil h]
  · rw [scanFrom_of_after_ne_nil h, tagsOf_append]

/-- Two places with one and the same step lead to the same. -/
theorem of_step_eq (hp : p.after ≠ []) (hq : q.after ≠ [])
    (h : s.step rules line p = t.step rules line q) : Leads rules line s p [] t q := by
  constructor
  · rw [scanFrom_of_after_ne_nil hp, scanFrom_of_after_ne_nil hq, h]
  · rw [scanFrom_of_after_ne_nil hp, scanFrom_of_after_ne_nil hq, h]
    rfl

/-! ## Comments and strings -/

/-- **A search passes over what it does not look for**, byte by byte. -/
theorem search {b c : UInt8} {more rest : Bytes} (ha : p.after = c :: rest)
    (hs : ∀ q, s.step rules line q = s.searchStep b more q)
    (hc : (b :: more).isPrefixOf (c :: rest) = false) :
    Leads rules line s p [] s (p.forward 1) := by
  have hne : p.after ≠ [] := by
    rw [ha]
    exact List.cons_ne_nil c rest
  have hafter : (p.forward 1).after = rest := by
    rw [Place.after_forward, ha]
    rfl
  have hocc : Place.occurrence? b more p.after
      = (Place.occurrence? b more rest).map (· + 1) := by
    rw [ha, Place.occurrence?, hc]
    rfl
  by_cases hr : rest = []
  · -- the byte is the last of the line, and the search ends behind it
    subst hr
    have he : s.step rules line p = ⟨s, p.forward 1, []⟩ := by
      have hend : p.toEnd = p.forward 1 := Place.toEnd_of_length (by rw [ha]; rfl)
      rw [hs, State.searchStep, Place.skipPast, hocc, hend]
      rfl
    exact of_step hne he
  · refine of_step_eq hne (by rw [hafter]; exact hr) ?_
    rw [hs, hs, State.searchStep, State.searchStep, Place.skipPast, Place.skipPast, hafter, hocc]
    cases Place.occurrence? b more rest with
    | none =>
      dsimp only [Option.map_none]
      rw [Place.toEnd_forward]
    | some n =>
      dsimp only [Option.map_some]
      rw [Place.forward_forward, show 1 + (n + (more.length + 1)) = n + 1 + (more.length + 1)
        from by omega]

/-- A search that finds what it looks for goes back to code. -/
theorem found {b : UInt8} {more rest : Bytes} (ha : p.after = b :: (more ++ rest))
    (hs : s.step rules line p = s.searchStep b more p) :
    Leads rules line s p [] { s with mode := .code } (p.forward (more.length + 1)) := by
  have hne : p.after ≠ [] := by
    rw [ha]
    exact List.cons_ne_nil b _
  have hocc : Place.occurrence? b more p.after = some 0 := by
    rw [ha, Place.occurrence?, if_pos]
    exact List.isPrefixOf_iff_prefix.mpr ⟨rest, rfl⟩
  have he : s.step rules line p
      = ⟨{ s with mode := .code }, p.forward (more.length + 1), []⟩ := by
    rw [hs, State.searchStep, Place.skipPast, hocc]
    dsimp only
    rw [Nat.zero_add]
    rfl
  exact of_step hne he

/-! ## Blanks and what is skipped -/

theorem step_of_skipBlanks_eq (hm : s.mode = .code) (h : p.skipBlanks = q.skipBlanks) :
    s.step rules line p = s.step rules line q := by
  rw [State.step, State.step, hm]
  dsimp only
  rw [h]

/-- **A blank is left behind.** -/
theorem blank {n : Nat} (hm : s.mode = .code) (h : blank? p.after = some n) :
    Leads rules line s p [] s (p.forward n) := by
  have hne : p.after ≠ [] := by
    intro hnil
    rw [hnil] at h
    exact absurd h (by simp [blank?])
  have hskip := Place.skipBlanks_of_blank? h
  by_cases hend : (p.forward n).after = []
  · have hq : p.skipBlanks = p.forward n := by
      rw [← hskip, Place.skipBlanks, Place.forward_of_after_eq_nil hend]
    have he : s.step rules line p = ⟨s, p.forward n, []⟩ := by
      rw [State.step, hm]
      dsimp only
      rw [hq]
      generalize p.forward n = q at hend
      simp [Place.startsWith, Place.here?, Place.atEnd, hend]
    exact of_step hne he
  · exact of_step_eq hne hend (step_of_skipBlanks_eq hm hskip.symm)

end Leads

end DeclTags
