import GooseClaw.Found.Words

/-!
# Lines

A list cut behind every terminator falls into lines, `lines`. Each keeps its terminator, and whatever
stands behind the last terminator is a line of its own without one. A terminated line is cut off
whatever follows it (`lines_append_cons`), and what holds no terminator is one line (`lines_of_free`),
so text put behind a list that does not end in a terminator (`EndsIn`) becomes part of its last line.
-/

namespace Found

variable {α : Type*}

/-- One element more in front of the first line. -/
def consLine (a : α) : List (List α) → List (List α)
  | [] => [[a]]
  | line :: rest => (a :: line) :: rest

/-- The lines of a list, each with its terminator. -/
def lines (p : α → Bool) : List α → List (List α)
  | [] => []
  | a :: l => if p a then [a] :: lines p l else consLine a (lines p l)

variable {p : α → Bool}

@[simp] theorem lines_nil : lines p [] = [] := rfl

theorem lines_cons {a : α} (ha : p a = true) (l : List α) : lines p (a :: l) = [a] :: lines p l :=
  if_pos ha

theorem lines_cons_of_not {a : α} (ha : p a = false) (l : List α) :
    lines p (a :: l) = consLine a (lines p l) :=
  if_neg (ne_true_of_eq_false ha)

/-- A terminated line is the first one, whatever follows it. -/
theorem lines_append_cons {x : List α} {s : α} (hx : ∀ a ∈ x, p a = false) (hs : p s = true)
    (l : List α) : lines p (x ++ s :: l) = (x ++ [s]) :: lines p l := by
  induction x with
  | nil => exact lines_cons hs l
  | cons a x ih =>
    have hxs : ∀ b ∈ x, p b = false := fun b hb => hx b (List.mem_cons_of_mem a hb)
    rw [List.cons_append, lines_cons_of_not (hx a List.mem_cons_self), ih hxs]
    rfl

/-- What holds no terminator is one line. -/
theorem lines_of_free {x : List α} (hx : ∀ a ∈ x, p a = false) (hne : x ≠ []) :
    lines p x = [x] := by
  induction x with
  | nil => exact absurd rfl hne
  | cons a x ih =>
    have hxs : ∀ b ∈ x, p b = false := fun b hb => hx b (List.mem_cons_of_mem a hb)
    rw [lines_cons_of_not (hx a List.mem_cons_self)]
    cases x with
    | nil => rfl
    | cons b x =>
      rw [ih hxs (List.cons_ne_nil b x)]
      rfl

/-- A list that ends in a terminator ends in no text without one. -/
theorem EndsIn.eq_nil_of_append {x y : List α} (h : EndsIn p (x ++ y))
    (hy : ∀ a ∈ y, p a = false) : y = [] := by
  rcases List.eq_nil_or_concat y with rfl | ⟨y', a, rfl⟩
  · rfl
  · rw [List.concat_eq_append] at h hy
    have ha : p a = true := h a (by rw [← List.append_assoc, List.getLast?_append]; rfl)
    have hfree := hy a (List.mem_append_right y' (List.mem_singleton_self a))
    rw [ha] at hfree
    cases hfree

end Found
