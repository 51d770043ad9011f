import DeclTags.Proofs.Settings.FirstPass
import DeclTags.Proofs.Utf8.Ascii

/-!
# How an argument is taken apart

What an argument looks like is decided on its text, and its text can be read
off its forms again. There are four shapes. An argument that does not start
with a dash, or is nothing but that dash, is a path. One dash and letters are
short flags. Two dashes and a name are a long flag, and an equals sign behind
the name attaches a value to it; the name ends at the first one. Only the
separator has no shape (`exists_shape`).
-/

namespace DeclTags

open Utf8

namespace Argument

/-- The argument that ends the flags. -/
def separator : Bytes := [Ascii.dash, Ascii.dash]

/-- **The shape of an argument**: the forms that it has, and what its text
looks like then. -/
inductive Shape (a : Bytes) : List Form → Prop
  /-- A path. -/
  | path (text : ∀ c more, (lossy a).toList ≠ '-' :: c :: more) : Shape a [.positional a]
  /-- One short flag or several. -/
  | shorts {letter : Char} {letters : List Char} (text : (lossy a).toList = '-' :: letter :: letters)
      (single : letter ≠ '-') : Shape a ((letter :: letters).map (Form.short · (lossy a)))
  /-- A long flag. -/
  | long {name : List Char} (text : (lossy a).toList = '-' :: '-' :: name)
      (plain : '=' ∉ name) : Shape a [.long (String.ofList name) (lossy a)]
  /-- A long flag with a value attached to it. -/
  | attached {name value : List Char}
      (text : (lossy a).toList = '-' :: '-' :: (name ++ '=' :: value)) (plain : '=' ∉ name) :
      Shape a [.long (String.ofList name) (lossy a), .attached (String.ofList value)]

variable {a : Bytes}

/-- An argument with a shape has a form. -/
theorem Shape.ne_nil {forms : List Form} (h : Shape a forms) : forms ≠ [] := by
  cases h <;> exact List.cons_ne_nil _ _

/-- A flag remembers the text of its argument. -/
theorem Shape.whole {forms : List Form} (h : Shape a forms) : ∀ form ∈ forms,
    form = .positional a ∨ form.whole = ofString (lossy a) ∨
      ∃ value, form = .attached value := by
  cases h with
  | path _ => exact List.forall_mem_singleton.mpr (.inl rfl)
  | shorts _ _ =>
    intro form hform
    obtain ⟨letter, -, rfl⟩ := List.mem_map.mp hform
    exact .inr (.inl rfl)
  | long _ _ => exact List.forall_mem_singleton.mpr (.inr (.inl rfl))
  | attached _ _ =>
    exact List.forall_mem_cons.mpr
      ⟨.inr (.inl rfl), List.forall_mem_singleton.mpr (.inr (.inr ⟨_, rfl⟩))⟩

/-- The separator has no forms. -/
theorem ofArgument?_separator : Form.ofArgument? separator = none := by decide +kernel

/-- A dash alone is a path. -/
theorem ofArgument?_dash : Form.ofArgument? [Ascii.dash] = some [.positional [Ascii.dash]] := by
  decide +kernel

/-- Two dashes and more are a long flag. -/
theorem ofArgument?_eq_ofLong {body : List Char} (h : (lossy a).toList = '-' :: '-' :: body)
    (hne : body ≠ []) : Form.ofArgument? a = some (Form.ofLong (lossy a) body) := by
  obtain ⟨c, more, rfl⟩ := List.exists_cons_of_ne_nil hne
  unfold Form.ofArgument?
  dsimp only
  rw [h]
  rfl

/-- A long flag has the shape of one. -/
theorem shape_ofLong {body : List Char} (h : (lossy a).toList = '-' :: '-' :: body) :
    Shape a (Form.ofLong (lossy a) body) := by
  unfold Form.ofLong
  split
  · rename_i hplain
    refine .long h fun hmem => ?_
    exact absurd (List.dropWhile_eq_nil_iff.mp hplain _ hmem) (by decide)
  · rename_i c value hvalue
    -- what is left starts with the first equals sign
    have hc : c = '=' := by
      have hhead := List.head?_dropWhile_not (· ≠ '=') body
      rw [hvalue] at hhead
      simpa using hhead
    subst hc
    have hbody : body = body.takeWhile (· ≠ '=') ++ '=' :: value := by
      rw [← hvalue, List.takeWhile_append_dropWhile]
    refine .attached (h.trans (congrArg (fun text => '-' :: '-' :: text) hbody)) fun hmem => ?_
    exact absurd (List.mem_takeWhile_imp hmem) (by decide)

/-- **Every argument but the separator has its shape.** -/
theorem exists_shape (h : a ≠ separator) :
    ∃ forms, Form.ofArgument? a = some forms ∧ Shape a forms := by
  generalize hforms : Form.ofArgument? a = forms?
  unfold Form.ofArgument? at hforms
  dsimp only at hforms
  split at hforms <;> subst hforms
  case h_1 htext => exact ⟨_, rfl, .path fun c more => by rw [htext]; simp⟩
  case h_2 htext =>
    have ha : a = ofString (String.ofList ['-', '-']) :=
      eq_ofString_of_lossy (by rw [← htext, String.ofList_toList])
        (by rw [String.toList_ofList]; decide)
    exact absurd ha h
  case h_3 htext => exact ⟨_, rfl, shape_ofLong htext⟩
  case h_4 letters hne _ hlong htext =>
    obtain ⟨letter, letters, rfl⟩ := List.exists_cons_of_ne_nil hne
    refine ⟨_, rfl, .shorts htext ?_⟩
    rintro rfl
    exact hlong letters rfl
  case h_5 hshort => exact ⟨_, rfl, .path fun c more => hshort _⟩

end Argument

end DeclTags
