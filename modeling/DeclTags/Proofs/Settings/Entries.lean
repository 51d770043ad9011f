import DeclTags.Proofs.Settings.Arguments

/-!
# Entries give their arguments back

A command line is taken apart once, and whoever reads the entries afterwards
no longer sees the arguments. Nothing is lost by that. Entries stand in the
order of their arguments and carry their numbers, so the forms of each
argument can be collected again (`Entry.formsOf`), and they have the shape
that the argument had (`Argument.Shape`), from which its text can be read off.
Only the separator leaves no entry behind, and that too can be seen: it is
the one number that is missing.

All of it comes from one equation (`Entry.formsOf_ofArguments`), which says
what the forms of an argument are by what stands in front of it. Behind the
separator they are the argument itself. In front of it they are what the
argument alone is taken apart into.
-/

namespace DeclTags

open Utf8

namespace Entry

/-- **The forms of one argument** among some entries, by its number. -/
def formsOf (number : Nat) (es : List Entry) : List Form :=
  (es.filter (·.index = number)).map form

variable {number n : Nat} {a : Bytes} {before after arguments : List Bytes} {es fs : List Entry}

theorem formsOf_append : formsOf number (es ++ fs) = formsOf number es ++ formsOf number fs := by
  rw [formsOf, List.filter_append, List.map_append]
  rfl

theorem formsOf_eq_nil (h : ∀ e ∈ es, e.index ≠ number) : formsOf number es = [] := by
  refine List.map_eq_nil_iff.mpr (List.filter_eq_nil_iff.mpr fun e he => ?_)
  rw [decide_eq_true_eq]
  exact h e he

/-- The entries of an argument have its forms. -/
theorem formsOf_map (forms : List Form) : formsOf n (forms.map (⟨·, n⟩)) = forms := by
  induction forms with
  | nil => rfl
  | cons form forms ih =>
    rw [List.map_cons, formsOf, List.filter_cons, if_pos (decide_eq_true rfl), List.map_cons]
    exact congrArg (form :: ·) ih

/-- Entries of one argument between those of earlier and of later ones. -/
theorem formsOf_between (forms : List Form) (hes : ∀ e ∈ es, e.index < n)
    (hfs : ∀ e ∈ fs, n < e.index) : formsOf n (es ++ (forms.map (⟨·, n⟩) ++ fs)) = forms := by
  rw [formsOf_append, formsOf_append, formsOf_eq_nil fun e he => Nat.ne_of_lt (hes e he),
    formsOf_eq_nil fun e he => Nat.ne_of_gt (hfs e he), formsOf_map, List.append_nil,
    List.nil_append]

/-! ## The order of entries -/

theorem pairwise_paths (n : Nat) (arguments : List Bytes) :
    (paths n arguments).Pairwise fun e f => e.index ≤ f.index := by
  induction arguments generalizing n with
  | nil => exact .nil
  | cons a rest ih =>
    refine .cons (fun f hf => ?_) (ih (n + 1))
    exact Nat.le_of_lt (index_of_mem_paths hf).1

/-- **Entries stand in the order of their arguments.** -/
theorem pairwise_ofArgumentsFrom (n : Nat) (arguments : List Bytes) :
    (ofArgumentsFrom n arguments).Pairwise fun e f => e.index ≤ f.index := by
  induction arguments generalizing n with
  | nil => exact .nil
  | cons a rest ih =>
    rw [ofArgumentsFrom]
    cases Form.ofArgument? a with
    | none => exact pairwise_paths (n + 1) rest
    | some forms =>
      have hsame : (forms.map (⟨·, n⟩ : Form → Entry)).Pairwise fun e f => e.index ≤ f.index :=
        List.pairwise_map.mpr (List.pairwise_of_forall fun _ _ => Nat.le_refl n)
      refine List.pairwise_append.mpr ⟨hsame, ih (n + 1), fun e he f hf => ?_⟩
      obtain ⟨form, -, rfl⟩ := List.mem_map.mp he
      exact Nat.le_of_lt (index_of_mem hf).1

/-! ## The forms of each argument -/

theorem paths_append (n : Nat) (before after : List Bytes) :
    paths n (before ++ after) = paths n before ++ paths (n + before.length) after := by
  induction before generalizing n with
  | nil => rfl
  | cons a before ih =>
    rw [List.cons_append, paths, ih, paths, List.length_cons, Nat.add_right_comm n 1,
      Nat.add_assoc n]
    rfl

theorem formsOf_paths :
    formsOf (n + before.length) (paths n (before ++ a :: after)) = [.positional a] := by
  rw [paths_append, paths]
  exact formsOf_between [.positional a] (fun e he => (index_of_mem_paths he).2)
    fun e he => (index_of_mem_paths he).1

/-- **What the forms of an argument are** is said by what stands in front of
it. -/
theorem formsOf_ofArguments (before : List Bytes) (a : Bytes) (after : List Bytes) :
    formsOf (before.length + 1) (ofArguments (before ++ a :: after))
      = if Argument.separator ∈ before then [.positional a]
        else (Form.ofArgument? a).getD [] := by
  rw [ofArguments, Nat.add_comm]
  split
  · rename_i h
    -- the argument is one of the paths behind the first separator
    obtain ⟨front, behind, rfl, hfront⟩ := List.eq_append_cons_of_mem h
    have hnumber : 1 + (front ++ Argument.separator :: behind).length
        = 1 + front.length + 1 + behind.length := by
      rw [List.length_append, List.length_cons]
      omega
    rw [List.append_assoc, List.cons_append, Argument.ofArgumentsFrom_append hfront,
      Argument.ofArgumentsFrom_separator, formsOf_append, hnumber, formsOf_paths,
      formsOf_eq_nil fun e he => by have := (index_of_mem he).2; omega]
    rfl
  · rename_i h
    rw [Argument.ofArgumentsFrom_append h, ofArgumentsFrom]
    cases Form.ofArgument? a with
    | none =>
      rw [formsOf_append, formsOf_eq_nil fun e he => Nat.ne_of_lt (index_of_mem he).2,
        formsOf_eq_nil fun e he => Nat.ne_of_gt (index_of_mem_paths he).1]
      rfl
    | some forms =>
      exact formsOf_between forms (fun e he => (index_of_mem he).2) fun e he => (index_of_mem he).1

end Entry

/-- **A command line can be put together again from its entries.** They stand
in the order of the arguments and have no other numbers than those. Of the
arguments, the first separator alone has no entry. Each other argument is a
path, given by its bytes, or has the forms of its shape, from which its text
can be read off and which remember the whole of it. It is a path if it stands
behind the separator or is nothing but a dash. -/
theorem entries_give_arguments_back (arguments : List Bytes) :
    ((Entry.ofArguments arguments).Pairwise fun e f => e.index ≤ f.index) ∧
    (∀ e ∈ Entry.ofArguments arguments, 1 ≤ e.index ∧ e.index ≤ arguments.length) ∧
    ∀ before a after, arguments = before ++ a :: after →
      let forms := Entry.formsOf (before.length + 1) (Entry.ofArguments arguments)
      (forms = [] ↔ a = Argument.separator ∧ Argument.separator ∉ before) ∧
      (forms ≠ [] → forms = [.positional a] ∨ Argument.Shape a forms) ∧
      (∀ form ∈ forms, form = .positional a ∨ form.whole = ofString (lossy a) ∨
        ∃ value, form = .attached value) ∧
      (Argument.separator ∈ before ∨ a = [Ascii.dash] → forms = [.positional a]) := by
  refine ⟨Entry.pairwise_ofArgumentsFrom 1 arguments, fun e he => ?_, ?_⟩
  · have := Entry.index_of_mem he
    omega
  · rintro before a after rfl forms
    have hforms : forms = _ := Entry.formsOf_ofArguments before a after
    rw [hforms]
    by_cases hbefore : Argument.separator ∈ before
    · rw [if_pos hbefore]
      exact ⟨⟨fun h => absurd h (List.cons_ne_nil _ _), fun h => absurd hbefore h.2⟩,
        fun _ => .inl rfl, List.forall_mem_singleton.mpr (.inl rfl), fun _ => rfl⟩
    · rw [if_neg hbefore]
      by_cases ha : a = Argument.separator
      · subst ha
        rw [Argument.ofArgument?_separator]
        exact ⟨⟨fun _ => ⟨rfl, hbefore⟩, fun _ => rfl⟩, fun h => absurd rfl h,
          fun _ h => absurd h List.not_mem_nil,
          fun h => absurd h (not_or.mpr ⟨hbefore, by decide⟩)⟩
      · obtain ⟨forms, hforms, hshape⟩ := Argument.exists_shape ha
        rw [hforms]
        refine ⟨⟨fun h => absurd h hshape.ne_nil, fun h => absurd h.1 ha⟩,
          fun _ => .inr hshape, hshape.whole, fun h => ?_⟩
        obtain rfl := h.resolve_left hbefore
        exact Option.some.inj (hforms.symm.trans Argument.ofArgument?_dash)

/-- A long flag without a name whose value has an equals sign in it, the
separator, and what would be a flag in front of it. -/
theorem entries_give_arguments_back_separator :
    let arguments : List Bytes := ["--=a=b", "-", "--", "--help"].map ofString
    let es := Entry.ofArguments arguments
    Argument.Shape (ofString "--=a=b") (Entry.formsOf 1 es) ∧
      Entry.formsOf 2 es = [.positional (ofString "-")] ∧ Entry.formsOf 3 es = [] ∧
      Entry.formsOf 4 es = [.positional (ofString "--help")] := by
  intro arguments es
  obtain ⟨-, -, hforms⟩ := entries_give_arguments_back arguments
  refine ⟨?_, ?_, ?_, ?_⟩
  · refine ((hforms [] _ _ rfl).2.1 (by decide +kernel)).resolve_left (by decide +kernel)
  · exact (hforms [_] _ _ rfl).2.2.2 (.inr (by decide))
  · exact (hforms [_, _] _ _ rfl).1.mpr ⟨by decide, by decide⟩
  · exact (hforms [_, _, _] _ _ rfl).2.2.2 (.inl (by decide))

end DeclTags
