import DeclTags.Proofs.Scan.Leads

/-!
# A scan at a word

At a word a scan may do one of three things. Outside a declaration it asks
whether the word is a keyword, and if it is not, walks through it byte by
byte; behind the first byte the answer is known to be no, because no word
starts inside a word. Before a name it walks to the first byte at which a
name may start, and takes what is left of the word. Behind a variable it
walks through the word and finds nothing.

`Leads.word` puts the three together: a word is left behind as a whole, with
what the outline says it declares.
-/

namespace DeclTags

open Utf8

variable {rules : Rules} {line : Nat} {s : State} {p : Place}

/-! ## Steps over code -/

namespace State

theorem step_of_code (hm : s.mode = .code) (hb : blank? p.after = none) :
    s.step rules line p
      = if rules.lineComment p.after then ⟨s, p.toEnd, []⟩
        else if rules.openComment p.after then ⟨{ s with mode := .comment }, p.forward 2, []⟩
        else if rules.openString p.after then ⟨{ s with mode := .string }, p.forward 1, []⟩
        else if p.here? = some Ascii.semicolon then s.goTo s.statementPhase (p.forward 1) []
        else if p.atEnd then ⟨s, p, []⟩
        else s.codeStep rules line p := by
  rw [step, hm]
  dsimp only
  rw [Place.skipBlanks_of_not_blank hb]
  rfl

theorem step_of_not_skipsAt (hm : s.mode = .code) (hb : blank? p.after = none)
    (hs : rules.skipsAt p.after = false) (hne : p.after ≠ []) :
    s.step rules line p
      = if p.here? = some Ascii.semicolon then s.goTo s.statementPhase (p.forward 1) []
        else s.codeStep rules line p := by
  obtain ⟨hl, hc, ho⟩ := Rules.skipsAt_eq_false_iff.mp hs
  have he : p.atEnd = false := by
    rw [Place.atEnd, List.isEmpty_eq_false_iff]
    exact hne
  rw [step_of_code hm hb, hl, hc, ho, he]
  rfl

/-- Inside a word the scan looks at nothing but the phase. -/
theorem step_of_goesOn (hm : s.mode = .code) (h : wordGoesOn p.after = true) :
    s.step rules line p = s.codeStep rules line p := by
  cases ha : p.after with
  | nil =>
    rw [ha] at h
    exact absurd h Bool.false_ne_true
  | cons b rest =>
    have hc : continuesWord b = true := continuesWord_of_goesOn (by rw [← ha]; exact h)
    have hsemi : ¬ (p.here? = some Ascii.semicolon) := by
      rw [Place.here?, ha]
      exact fun he => Rules.ne_of_continuesWord hc (by decide) (Option.some.inj he)
    have hskip : rules.skipsAt p.after = false := by
      rw [ha]
      exact Rules.skipsAt_of_continuesWord hc rest
    have hne : p.after ≠ [] := by
      rw [ha]
      exact List.cons_ne_nil b rest
    rw [step_of_not_skipsAt hm (blank?_of_goesOn h) hskip hne, if_neg hsemi]

@[simp] theorem tagsOf_changeTo (s : State) (phase : Phase) : tagsOf (s.changeTo phase) = [] := by
  unfold changeTo
  split <;> rfl

/-- A named declaration is found if its kind is wanted. -/
theorem tagsOf_declare {t : Tag} (h : t.name.isEmpty = false) :
    tagsOf (declare rules t) = [t].filter rules.wants := by
  have hw : rules.wants t = rules.kinds.contains t.kind := rfl
  rw [declare, h, Bool.false_or, List.filter_cons, List.filter_nil, hw]
  cases rules.kinds.contains t.kind <;> rfl

theorem tagsOf_goTo (phase : Phase) (events : List Event) :
    tagsOf (s.goTo phase p events).events = tagsOf events := by
  rw [goTo, tagsOf_append, tagsOf_changeTo, List.append_nil]

/-- Taking a keyword changes the outline and finds nothing. -/
theorem takeKeyword_state (s : State) (line : Nat) (p : Place) (k : Keyword) (n : Nat) :
    (s.takeKeyword line p k n).state = (s.outline.afterKeyword k).state s.mode := by
  cases k <;> rfl

theorem tagsOf_takeKeyword (s : State) (line : Nat) (p : Place) (k : Keyword) (n : Nat) :
    tagsOf (s.takeKeyword line p k n).events = [] := by
  cases k with
  | var => exact tagsOf_goTo _ _
  | sub => exact tagsOf_goTo _ _
  | endSub =>
    refine (tagsOf_goTo _ _).trans ?_
    cases s.enclosing? <;> rfl

theorem tagsOf_takeFunction (h : p.word ≠ []) :
    tagsOf (s.takeFunction rules line p).events
      = [⟨lossy p.word, .function, line, none⟩].filter rules.wants :=
  (tagsOf_goTo _ _).trans (tagsOf_declare (lossy_ne_empty h))

theorem tagsOf_takeVariable (h : p.word ≠ []) :
    tagsOf (s.takeVariable rules line p).events
      = [⟨lossy p.word, .var, line, s.enclosing?⟩].filter rules.wants :=
  (tagsOf_goTo _ _).trans (tagsOf_declare (lossy_ne_empty h))

end State

/-! ## Walking through a word -/

namespace Leads

/-- **A word in which nothing is found** is walked through. -/
theorem walk {u rest : Bytes} (hm : s.mode = .code) (ha : p.after = u ++ rest) (hu : IsWord u)
    (hr : wordGoesOn rest = false)
    (hq : ∀ v w, u = v ++ w → w ≠ [] →
      s.codeStep rules line (p.forward v.length) = ⟨s, (p.forward v.length).forward 1, []⟩) :
    Leads rules line s p [] s (p.forward u.length) := by
  induction u generalizing p with
  | nil =>
    rw [List.length_nil, Place.forward_zero]
    exact Leads.refl s p
  | cons b u ih =>
    obtain ⟨hb, hu⟩ := isWord_cons_iff.mp hu
    have hg : wordGoesOn p.after = true := by
      rw [ha]
      exact (wordGoesOn_append b u (opensAfresh_of_not_goesOn hr)).trans hb
    have he : s.step rules line p = ⟨s, p.forward 1, []⟩ := by
      have hfirst := hq [] (b :: u) rfl (List.cons_ne_nil b u)
      rw [List.length_nil, Place.forward_zero] at hfirst
      rw [State.step_of_goesOn hm hg, hfirst]
    have hafter : (p.forward 1).after = u ++ rest := by
      rw [Place.after_forward, ha]
      rfl
    have hlater := ih hafter hu (fun v w hvw hw => by
      have hstep := hq (b :: v) w (by rw [hvw]; rfl) hw
      rw [List.length_cons, Nat.add_comm, ← Place.forward_forward] at hstep
      exact hstep)
    rw [List.length_cons, Nat.add_comm, ← Place.forward_forward]
    exact (of_step (by rw [ha]; exact List.cons_ne_nil b _) he).trans hlater

/-- **The name in a word.** A scan that waits for a name walks to the first
byte at which one may start, and takes the rest of the word. What taking a
name does is given: the declaration found, and the state behind it. -/
theorem name (line : Nat) (take : Place → Step) (tag : String → Tag) (after : String → State)
    {u rest : Bytes} (hm : s.mode = .code)
    (hs : ∀ q, s.codeStep rules line q
      = if q.atNameStart rules.cyrillic then take q else ⟨s, q.forward 1, []⟩)
    (htags : ∀ q : Place, q.word ≠ [] →
      tagsOf (take q).events = [tag (lossy q.word)].filter rules.wants)
    (hstate : ∀ q, (take q).state = after (lossy q.word))
    (hplace : ∀ q, (take q).place = q.skipWord)
    (ha : p.after = u ++ rest) (hu : IsWord u) (hr : wordGoesOn rest = false) :
    match nameIn? rules.cyrillic u with
    | none => Leads rules line s p [] s (p.forward u.length)
    | some name => Leads rules line s p ([tag (lossy name)].filter rules.wants)
        (after (lossy name)) (p.forward u.length) := by
  induction u generalizing p with
  | nil =>
    show Leads rules line s p [] s (p.forward 0)
    rw [Place.forward_zero]
    exact Leads.refl s p
  | cons b u ih =>
    have hword : p.word = b :: u := by
      rw [Place.word, ha]
      exact wordAt_append_of_not_goesOn hu hr
    have ho := opensAfresh_of_not_goesOn hr
    obtain ⟨hb, hu⟩ := isWord_cons_iff.mp hu
    have hne : p.after ≠ [] := by
      rw [ha]
      exact List.cons_ne_nil b _
    have hg : wordGoesOn p.after = true := by
      rw [ha]
      exact (wordGoesOn_append b u ho).trans hb
    have hstart : p.atNameStart rules.cyrillic = startsName rules.cyrillic (b :: u) := by
      rw [Place.atNameStart, ha]
      exact startsName_append rules.cyrillic b u ho
    have hstep := (State.step_of_goesOn hm hg).trans (hs p)
    rw [nameIn?]
    cases hn : startsName rules.cyrillic (b :: u) with
    | true =>
      rw [hstart, hn, if_pos rfl] at hstep
      have hlead := of_step hne hstep
      rw [htags p (by rw [hword]; exact List.cons_ne_nil b u), hstate, hplace, Place.skipWord,
        hword] at hlead
      exact hlead
    | false =>
      rw [hstart, hn, if_neg Bool.false_ne_true] at hstep
      have hafter : (p.forward 1).after = u ++ rest := by
        rw [Place.after_forward, ha]
        rfl
      have hfirst := of_step hne hstep
      have hlater := ih hafter hu
      rw [Place.forward_forward, Nat.add_comm 1] at hlater
      rw [if_neg Bool.false_ne_true, List.length_cons]
      cases hname : nameIn? rules.cyrillic u with
      | none =>
        rw [hname] at hlater
        exact hfirst.trans hlater
      | some name =>
        rw [hname] at hlater
        exact hfirst.trans hlater

/-- **A word that starts where a word may start**, in a phase in which
keywords are awaited. -/
theorem keyword {w rest : Bytes} (hm : s.mode = .code) (hp : p.atWordStart = true)
    (ha : p.after = w ++ rest) (hne : w ≠ []) (hw : IsWord w) (hr : wordGoesOn rest = false)
    (hs : ∀ q, s.codeStep rules line q
      = match State.keywordAt? q (State.awaited s.phase) with
        | some (k, n) => s.takeKeyword line q k n
        | none => ⟨s, q.forward 1, []⟩) :
    Leads rules line s p []
      (((s.outline.keyword? w).elim s.outline s.outline.afterKeyword).state .code)
      (p.forward w.length) := by
  have hword : p.word = w := by
    rw [Place.word, ha]
    exact wordAt_append_of_not_goesOn hw hr
  have hfind : State.keywordAt? p (State.awaited s.phase)
      = (s.outline.keyword? w).map fun k => (k, w.length) := by
    rw [State.keywordAt?_of_atWordStart hp, hword]
    rfl
  cases hk : s.outline.keyword? w with
  | none =>
    rw [hk, Option.map_none] at hfind
    rw [Option.elim_none, ← hm, State.state_outline]
    refine walk hm ha hw hr (fun v x hv hx => ?_)
    rw [hs]
    by_cases hnil : v = []
    · subst hnil
      rw [List.length_nil, Place.forward_zero, hfind]
    · have hafter : p.after = v ++ (x ++ rest) := by
        rw [ha, hv, List.append_assoc]
      rw [State.keywordAt?_of_not_atWordStart]
      exact Place.atWordStart_forward_of_isWord hp hafter hnil (hv ▸ hw)
  | some k =>
    rw [hk, Option.map_some] at hfind
    have hg : wordGoesOn p.after = true := by
      rw [← wordAt_ne_nil_iff]
      show p.word ≠ []
      rw [hword]
      exact hne
    have hstep : s.step rules line p = s.takeKeyword line p k w.length := by
      rw [State.step_of_goesOn hm hg, hs, hfind]
    have hlead := of_step (by rw [ha]; exact List.append_ne_nil_of_left_ne_nil hne rest) hstep
    rw [State.place_takeKeyword, State.takeKeyword_state, State.tagsOf_takeKeyword, hm] at hlead
    exact hlead

/-- **A word is left behind as a whole**, with what the outline says about
it. -/
theorem word {w rest : Bytes} (hm : s.mode = .code) (hp : p.atWordStart = true)
    (ha : p.after = w ++ rest) (hne : w ≠ []) (hw : IsWord w) (hr : wordGoesOn rest = false) :
    Leads rules line s p
      ((s.outline.afterWord rules.cyrillic line w).2.toList.filter rules.wants)
      ((s.outline.afterWord rules.cyrillic line w).1.state .code) (p.forward w.length) := by
  obtain ⟨phase, mode, enclosing?⟩ := s
  obtain rfl : mode = .code := hm
  cases phase with
  | outside =>
    rw [Outline.afterWord_outside (.inl rfl)]
    exact keyword rfl hp ha hne hw hr (fun _ => rfl)
  | body =>
    rw [Outline.afterWord_outside (.inr rfl)]
    exact keyword rfl hp ha hne hw hr (fun _ => rfl)
  | beforeFunction =>
    have hlead := name (s := ⟨.beforeFunction, .code, enclosing?⟩) line
      (State.takeFunction _ rules line)
      (fun f => ⟨f, .function, line, none⟩) (fun f => ⟨.body, .code, some f⟩) rfl
      (fun _ => rfl) (fun _ => State.tagsOf_takeFunction) (fun _ => rfl) (fun _ => rfl) ha hw hr
    unfold Outline.afterWord
    dsimp only [State.outline]
    cases hn : nameIn? rules.cyrillic w with
    | none =>
      rw [hn] at hlead
      exact hlead
    | some name =>
      rw [hn] at hlead
      exact hlead
  | beforeVariable =>
    have hlead := name (s := ⟨.beforeVariable, .code, enclosing?⟩) line
      (State.takeVariable _ rules line)
      (fun v => ⟨v, .var, line, enclosing?⟩) (fun _ => ⟨.behindVariable, .code, enclosing?⟩) rfl
      (fun _ => rfl) (fun _ => State.tagsOf_takeVariable) (fun _ => rfl) (fun _ => rfl) ha hw hr
    unfold Outline.afterWord
    dsimp only [State.outline]
    cases hn : nameIn? rules.cyrillic w with
    | none =>
      rw [hn] at hlead
      exact hlead
    | some name =>
      rw [hn] at hlead
      exact hlead
  | behindVariable =>
    refine walk rfl ha hw hr (fun v x hv hx => ?_)
    have hcomma : ¬ ((p.forward v.length).here? = some Ascii.comma) := by
      intro hc
      have hmem : Ascii.comma ∈ w := by
        obtain ⟨b, x, rfl⟩ := List.exists_cons_of_ne_nil hx
        rw [Place.here?, Place.after_forward, ha, hv, List.append_assoc, List.drop_left] at hc
        rw [hv, ← Option.some.inj hc]
        exact List.mem_append_right v List.mem_cons_self
      have hgo := hw.continuesWord_of_mem _ hmem
      exact absurd hgo Bool.false_ne_true
    exact if_neg hcomma

end Leads

end DeclTags
