/-
# `MnApp.Lib.Cut` — a text cut at the first occurrence of a delimiter

`before c s` is what stands in front of the first `c`, and `behind c s` what
stands behind it, if there is one.  The two determine the text
(`before_append_behind`), and a text that is written as `a ++ c :: b` with no
`c` in `a` is cut into `a` and `b`.  Searches for `c` by index find the same
place (`findIdx?_append_cons`).

Nothing here is about a particular format.
-/
import Mathlib.Data.List.TakeWhile

namespace Cut

variable {α : Type} [DecidableEq α] {c : α} {s a b : List α}

/-- What stands in front of the first delimiter, or everything. -/
def before (c : α) (s : List α) : List α := s.takeWhile (· != c)

/-- What stands behind the first delimiter, if there is one. -/
def behind (c : α) (s : List α) : Option (List α) :=
  match s.dropWhile (· != c) with
  | [] => none
  | _ :: t => some t

theorem bne_of_not_mem (h : c ∉ s) : ∀ x ∈ s, (x != c) = true := by
  intro x hx
  rw [bne_iff_ne]
  rintro rfl
  exact h hx

theorem not_mem_before (c : α) (s : List α) : c ∉ before c s := fun h => by
  have := List.mem_takeWhile_imp h
  simp at this

@[simp] theorem before_of_not_mem (h : c ∉ s) : before c s = s :=
  List.takeWhile_eq_self_iff.mpr (bne_of_not_mem h)

@[simp] theorem behind_of_not_mem (h : c ∉ s) : behind c s = none := by
  have hnil : s.dropWhile (· != c) = [] := List.dropWhile_eq_nil_iff.mpr (bne_of_not_mem h)
  unfold behind
  rw [hnil]

theorem dropWhile_append_cons (h : c ∉ a) (b : List α) :
    (a ++ c :: b).dropWhile (· != c) = c :: b := by
  rw [List.dropWhile_append_of_pos (bne_of_not_mem h)]
  simp

@[simp] theorem before_append_cons (h : c ∉ a) (b : List α) : before c (a ++ c :: b) = a := by
  unfold before
  rw [List.takeWhile_append_of_pos (bne_of_not_mem h)]
  simp

@[simp] theorem behind_append_cons (h : c ∉ a) (b : List α) :
    behind c (a ++ c :: b) = some b := by
  unfold behind
  rw [dropWhile_append_cons h]

theorem cases (c : α) (s : List α) : c ∉ s ∨ ∃ a b, s = a ++ c :: b ∧ c ∉ a := by
  by_cases h : c ∈ s
  · exact .inr (List.eq_append_cons_of_mem h)
  · exact .inl h

theorem before_append_behind (c : α) (s : List α) :
    s = before c s ++ (behind c s).elim [] (c :: ·) := by
  obtain h | ⟨a, b, rfl, h⟩ := cases c s
  · simp [h]
  · simp [h]

theorem behind_eq_none_iff : behind c s = none ↔ c ∉ s := by
  obtain h | ⟨a, b, rfl, h⟩ := cases c s
  · simp [h]
  · simp [h]

theorem mem_of_mem_before {x : α} (h : x ∈ before c s) : x ∈ s :=
  (List.takeWhile_sublist _).mem h

theorem mem_of_mem_behind {x : α} {t : List α} (h : behind c s = some t) (hx : x ∈ t) : x ∈ s := by
  rw [before_append_behind c s, h]
  exact List.mem_append_right _ (List.mem_cons_of_mem _ hx)

/-! ## Searches by index -/

theorem findIdx?_of_not_mem (h : c ∉ s) : s.findIdx? (· == c) = none := by
  refine List.findIdx?_eq_none_iff.mpr fun x hx => ?_
  simpa using bne_of_not_mem h x hx

theorem findIdx?_append_cons (h : c ∉ a) (b : List α) :
    (a ++ c :: b).findIdx? (· == c) = some a.length := by
  rw [List.findIdx?_append, findIdx?_of_not_mem h]
  simp [List.findIdx?_cons]

theorem length_le_of_findIdx? (h : c ∉ a) {n : Nat}
    (hn : (a ++ b).findIdx? (· == c) = some n) : a.length ≤ n := by
  rw [List.findIdx?_append, findIdx?_of_not_mem h, Option.none_or] at hn
  obtain ⟨m, -, rfl⟩ := Option.map_eq_some_iff.mp hn
  exact Nat.le_add_left _ _

theorem findIdx?_eq_dropWhile {α : Type} (q : α → Bool) (l : List α) :
    l.findIdx? q = if l.dropWhile (fun x => !q x) = [] then none
      else some (l.length - (l.dropWhile fun x => !q x).length) := by
  induction l with
  | nil => rfl
  | cons x l ih =>
      rw [List.findIdx?_cons]
      cases hx : q x with
      | true => simp [hx]
      | false =>
          have hlen : (l.dropWhile fun x => !q x).length ≤ l.length :=
            (List.dropWhile_sublist _).length_le
          simp only [List.dropWhile_cons, hx, Bool.not_false, if_true, Bool.false_eq_true, if_false,
            ih, List.length_cons]
          split
          · rfl
          · simp only [Option.map_some, Option.some.injEq]
            omega

theorem drop_eq_dropWhile {α : Type} (q : α → Bool) (l : List α) :
    l.drop (l.length - (l.dropWhile q).length) = l.dropWhile q :=
  (List.suffix_iff_eq_drop.mp (List.dropWhile_suffix q)).symm

end Cut
