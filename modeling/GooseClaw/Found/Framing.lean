import GooseClaw.Found.Lines

/-!
# Reading lines from a stream

A reader takes the items of a stream as they come in, and delivers a line when its terminator comes. What
it has taken of a line it holds in the read itself: cut that read off, and the next one starts behind
what is gone. So a read starts behind a terminator or behind a cut (`line_mem_deliveries`), and the lines
delivered are those of the stream as long as no cut falls inside a line (`delivers_whole_iff`).
-/

namespace Found

universe u v

/-- What happens to a reader: the next item of the stream comes in, or its read is cut off. -/
inductive Arrival (α : Type u) (ε : Type v)
  | item (a : α)
  | cut (e : ε)

/-- What the reader hands on: a line, with the place in the stream it was read from, or the cut. -/
inductive Delivery (α : Type u) (ε : Type v)
  | line (start : Nat) (l : List α)
  | cut (e : ε)

variable {α : Type u} {ε : Type v}

namespace Arrival

def item? : Arrival α ε → Option α
  | .item a => some a
  | .cut _ => none

/-- A read ends here. -/
def ends (p : α → Bool) : Arrival α ε → Bool
  | .item a => p a
  | .cut _ => true

/-- The stream that came in. -/
def items (as : List (Arrival α ε)) : List α := as.filterMap item?

@[simp] theorem items_nil : items ([] : List (Arrival α ε)) = [] := rfl

@[simp] theorem items_item (a : α) (as : List (Arrival α ε)) : items (.item a :: as) = a :: items as :=
  rfl

@[simp] theorem items_cut (e : ε) (as : List (Arrival α ε)) : items (.cut e :: as) = items as := rfl

@[simp] theorem items_append (as bs : List (Arrival α ε)) : items (as ++ bs) = items as ++ items bs :=
  List.filterMap_append

@[simp] theorem items_map_item (l : List α) : items (l.map (item (ε := ε))) = l := by
  induction l with
  | nil => rfl
  | cons a l ih => rw [List.map_cons, items_item, ih]

end Arrival

open Arrival

/-! ## The reader -/

section Reader

variable (p : α → Bool)

/-- What a reader delivers that has `taken` this much of a line, read from `start` on. -/
def deliveries : Nat → List α → List (Arrival α ε) → List (Delivery α ε)
  | _, _, [] => []
  | start, taken, .item a :: as =>
    if p a then .line start (taken ++ [a]) :: deliveries (start + taken.length + 1) [] as
    else deliveries start (taken ++ [a]) as
  | start, taken, .cut e :: as => .cut e :: deliveries (start + taken.length) [] as

/-- What it holds of a line in the end. -/
def pending : List α → List (Arrival α ε) → List α
  | taken, [] => taken
  | taken, .item a :: as => if p a then pending [] as else pending (taken ++ [a]) as
  | _, .cut _ :: as => pending [] as

/-- A line with its terminator. -/
def IsLine (l : List α) : Prop := ∃ x s, l = x ++ [s] ∧ (∀ a ∈ x, p a = false) ∧ p s = true

/-- The stream has this line here. -/
def LineAt (stream : List α) (start : Nat) (l : List α) : Prop :=
  ∃ before behind, stream = before ++ (l ++ behind) ∧ EndsIn p before ∧ IsLine p l ∧
    start = before.length

end Reader

variable {p : α → Bool}

theorem EndsIn.of_snoc {l : List α} {a : α} (h : EndsIn p (l ++ [a])) : p a = true :=
  h a (by rw [List.getLast?_append]; rfl)

/-- What a list ends in, its rest ends in. -/
theorem EndsIn.of_append {x y : List α} (h : EndsIn p (x ++ y)) : EndsIn p y := by
  rcases List.eq_nil_or_concat y with rfl | ⟨y', a, rfl⟩
  · exact endsIn_nil
  · rw [List.concat_eq_append] at h ⊢
    rw [← List.append_assoc] at h
    exact endsIn_snoc h.of_snoc

theorem EndsIn.append {x y : List α} (hx : EndsIn p x) (hy : EndsIn p y) : EndsIn p (x ++ y) := by
  rcases hy.eq_nil_or_snoc with rfl | ⟨y', a, rfl, ha⟩
  · rwa [List.append_nil]
  · rw [← List.append_assoc]
    exact endsIn_snoc ha

/-! ## The lines of a stream -/

/-- A list without a terminator that ends in one is empty. -/
theorem EndsIn.eq_nil_of_free {x : List α} (h : EndsIn p x) (hx : ∀ a ∈ x, p a = false) : x = [] :=
  EndsIn.eq_nil_of_append (x := []) h hx

/-- The first line of a stream is the one up to its first terminator. -/
theorem IsLine.eq_of_append {x rest l behind : List α} {s : α} (hx : ∀ a ∈ x, p a = false)
    (hs : p s = true) (hl : IsLine p l) (h : x ++ s :: rest = l ++ behind) : l = x ++ [s] := by
  obtain ⟨y, t, rfl, hy, ht⟩ := hl
  rw [List.append_assoc, List.singleton_append] at h
  have hlines := congrArg (lines p) h
  rw [lines_append_cons hx hs, lines_append_cons hy ht] at hlines
  exact (List.cons.inj hlines).1.symm

/-- **The lines of a stream are its first line and those behind it.** -/
theorem lineAt_append_cons {x rest l : List α} {s : α} {start : Nat} (hx : ∀ a ∈ x, p a = false)
    (hs : p s = true) :
    LineAt p (x ++ s :: rest) start l ↔
      start = 0 ∧ l = x ++ [s] ∨ ∃ n, start = x.length + 1 + n ∧ LineAt p rest n l := by
  constructor
  · rintro ⟨before, behind, heq, hends, hline, rfl⟩
    have hfirst (hnil : before = []) : before.length = 0 ∧ l = x ++ [s] := by
      subst hnil
      exact ⟨rfl, hline.eq_of_append hx hs heq⟩
    rcases List.append_eq_append_iff.mp heq with ⟨w, rfl, hrest⟩ | ⟨w, rfl, hrest⟩
    · cases w with
      | nil =>
        rw [List.append_nil] at hfirst hends ⊢
        exact .inl (hfirst (hends.eq_nil_of_free hx))
      | cons a w =>
        obtain ⟨rfl, hbehind⟩ := List.cons.inj hrest
        rw [List.append_cons] at hends
        refine .inr ⟨w.length, ?_, w, behind, hbehind, hends.of_append, hline, rfl⟩
        rw [List.length_append, List.length_cons]
        omega
    · exact .inl (hfirst (hends.eq_nil_of_free fun a ha => hx a (List.mem_append_left _ ha)))
  · rintro (⟨rfl, rfl⟩ | ⟨n, rfl, before, behind, rfl, hends, hline, rfl⟩)
    · exact ⟨[], rest, List.append_cons x s rest, endsIn_nil, ⟨x, s, rfl, hx, hs⟩, rfl⟩
    · refine ⟨x ++ [s] ++ before, behind, ?_, (endsIn_snoc hs).append hends, hline, ?_⟩
      · simp only [List.append_assoc, List.cons_append, List.nil_append]
      · rw [List.length_append, List.length_append, List.length_singleton]

/-! ## What is delivered -/

theorem free_nil : ∀ a ∈ ([] : List α), p a = false := nofun

/-- Behind the end of a read the reader starts anew. -/
theorem deliveries_append {b : Arrival α ε} (hb : b.ends p = true) (start : Nat) (taken : List α)
    (as bs : List (Arrival α ε)) :
    deliveries p start taken (as ++ b :: bs) =
      deliveries p start taken (as ++ [b]) ++
        deliveries p (start + taken.length + (items (as ++ [b])).length) [] bs := by
  induction as generalizing start taken with
  | nil =>
    cases b with
    | item a =>
      have ha : p a = true := hb
      simp only [List.nil_append, deliveries, if_pos ha, items_item, items_nil, List.length_singleton,
        List.cons_append]
    | cut e => rfl
  | cons a as ih =>
    cases a with
    | item a =>
      simp only [List.cons_append, deliveries, items_item, List.length_cons]
      by_cases ha : p a = true
      · rw [if_pos ha, if_pos ha, ih, List.cons_append, List.length_nil]
        congr 3
        omega
      · rw [if_neg ha, if_neg ha, ih, List.length_append, List.length_singleton]
        congr 2
        omega
    | cut e =>
      simp only [List.cons_append, deliveries, items_cut, ih, List.length_nil, Nat.add_zero]

/-- A line that comes in from the start of a read is delivered. -/
theorem deliveries_line {x : List α} {s : α} (hx : ∀ a ∈ x, p a = false) (hs : p s = true)
    (start : Nat) (taken : List α) (as : List (Arrival α ε)) :
    deliveries p start taken (x.map item ++ item s :: as) =
      .line start (taken ++ x ++ [s]) :: deliveries p (start + (taken ++ x).length + 1) [] as := by
  induction x generalizing taken with
  | nil => simp only [List.map_nil, List.nil_append, deliveries, if_pos hs, List.append_nil]
  | cons a x ih =>
    have ha := hx a List.mem_cons_self
    have hne : ¬ p a = true := ne_true_of_eq_false ha
    simp only [List.map_cons, List.cons_append, deliveries, if_neg hne]
    rw [ih (fun b hb => hx b (List.mem_cons_of_mem a hb)), List.append_cons taken a x]

/-- A line is delivered from the start of a read: behind `past`, which the reader has seen, it has
`taken` part of one. -/
theorem exists_of_line_mem {start s : Nat} {taken l : List α} {past as : List (Arrival α ε)}
    (htaken : ∀ a ∈ taken, p a = false) (hpast : EndsIn (ends p) past)
    (hstart : start = (items past).length) (h : .line s l ∈ deliveries p start taken as) :
    ∃ before behind, past ++ (taken.map item ++ as) = before ++ (l.map item ++ behind) ∧
      EndsIn (ends p) before ∧ IsLine p l ∧ s = (items before).length := by
  induction as generalizing start taken past with
  | nil => cases h
  | cons b as ih =>
    cases b with
    | item a =>
      unfold deliveries at h
      by_cases ha : p a = true
      · rw [if_pos ha] at h
        rcases List.mem_cons.mp h with heq | h
        · cases heq
          refine ⟨past, as, ?_, hpast, ⟨taken, a, rfl, htaken, ha⟩, hstart⟩
          rw [List.map_append, List.append_assoc]
          rfl
        · have hpast' : EndsIn (ends p) (past ++ (taken ++ [a]).map (item (ε := ε))) := by
            rw [List.map_append, ← List.append_assoc]
            exact endsIn_snoc ha
          have hstart' : start + taken.length + 1 =
              (items (past ++ (taken ++ [a]).map (item (ε := ε)))).length := by
            rw [items_append, items_map_item, List.length_append, List.length_append, hstart]
            rfl
          obtain ⟨before, behind, heq, hrest⟩ := ih free_nil hpast' hstart' h
          refine ⟨before, behind, ?_, hrest⟩
          rw [← heq, List.map_append, List.append_assoc, List.append_assoc]
          rfl
      · rw [if_neg ha] at h
        have htaken' : ∀ b ∈ taken ++ [a], p b = false := by
          intro b hb
          rcases List.mem_append.mp hb with hb | hb
          · exact htaken b hb
          · exact List.mem_singleton.mp hb ▸ Bool.eq_false_iff.mpr ha
        obtain ⟨before, behind, heq, hrest⟩ := ih htaken' hpast hstart h
        refine ⟨before, behind, ?_, hrest⟩
        rw [← heq, List.map_append, List.append_assoc]
        rfl
    | cut e =>
      unfold deliveries at h
      rcases List.mem_cons.mp h with heq | h
      · cases heq
      · have hpast' : EndsIn (ends p) (past ++ taken.map item ++ [.cut e]) := endsIn_snoc rfl
        have hstart' : start + taken.length = (items (past ++ taken.map item ++ [.cut e])).length := by
          rw [items_append, items_append, items_map_item, hstart]
          simp
        obtain ⟨before, behind, heq, hrest⟩ := ih free_nil hpast' hstart' h
        refine ⟨before, behind, ?_, hrest⟩
        rw [← heq]
        simp

/-- **Which lines are delivered**: those that come in uncut from the start of a read on. -/
theorem line_mem_deliveries {s : Nat} {l : List α} {as : List (Arrival α ε)} :
    .line s l ∈ deliveries p 0 [] as ↔
      ∃ before behind, as = before ++ (l.map item ++ behind) ∧ EndsIn (ends p) before ∧
        IsLine p l ∧ s = (items before).length := by
  constructor
  · intro h
    exact exists_of_line_mem free_nil (endsIn_nil : EndsIn (ends p) []) rfl h
  · rintro ⟨before, behind, rfl, hbefore, ⟨x, t, rfl, hx, ht⟩, rfl⟩
    have hline (start : Nat) : .line start (x ++ [t]) ∈
        deliveries p start [] ((x ++ [t]).map item ++ behind) := by
      rw [List.map_append, List.append_assoc]
      exact deliveries_line hx ht start [] behind ▸ List.mem_cons_self
    rcases hbefore.eq_nil_or_snoc with rfl | ⟨before', b, rfl, hb⟩
    · exact hline 0
    · rw [List.append_assoc, List.singleton_append, deliveries_append hb]
      apply List.mem_append_right
      rw [List.length_nil, Nat.zero_add]
      exact hline _

/-- Where a read starts, a line starts, unless a cut came before. -/
theorem endsIn_items {as : List (Arrival α ε)} (h : EndsIn (ends p) as)
    (hcut : ∀ before e, as = before ++ [.cut e] → EndsIn p (items before)) : EndsIn p (items as) := by
  rcases h.eq_nil_or_snoc with rfl | ⟨before, b, rfl, hb⟩
  · exact endsIn_nil
  · rw [items_append]
    cases b with
    | item a => exact endsIn_snoc hb
    | cut e =>
      rw [items_cut, items_nil, List.append_nil]
      exact hcut before e rfl

/-- **The lines delivered are lines of the stream, as far as one looks at them, exactly when every cut
behind which such a line comes in falls between two lines.** -/
theorem delivers_whole_iff {as : List (Arrival α ε)} {stream : List α} (hstream : items as <+: stream)
    (Looked : List α → Prop) :
    (∀ s l, .line s l ∈ deliveries p 0 [] as → Looked l → LineAt p stream s l) ↔
      ∀ before e l behind, as = before ++ .cut e :: (l.map item ++ behind) → IsLine p l → Looked l →
        EndsIn p (items before) := by
  obtain ⟨later, rfl⟩ := hstream
  constructor
  · rintro h before e l behind rfl hline hlooked
    have hmem : .line (items before).length l ∈
        deliveries p 0 [] (before ++ .cut e :: (l.map item ++ behind)) := by
      refine line_mem_deliveries.mpr ⟨before ++ [.cut e], behind, ?_, endsIn_snoc rfl, hline, ?_⟩
      · rw [List.append_assoc]
        rfl
      · rw [items_append, items_cut, items_nil, List.append_nil]
    obtain ⟨before', behind', heq, hends, -, hlength⟩ := h _ _ hmem hlooked
    rw [items_append, List.append_assoc] at heq
    obtain ⟨rfl, -⟩ := List.append_inj heq hlength
    exact hends
  · intro h s l hmem hlooked
    obtain ⟨before, behind, rfl, hends, hline, rfl⟩ := line_mem_deliveries.mp hmem
    refine ⟨items before, items behind ++ later, ?_, endsIn_items hends ?_, hline, rfl⟩
    · rw [items_append, items_append, items_map_item]
      simp only [List.append_assoc]
    · rintro before' e rfl
      exact h before' e l behind (by rw [List.append_assoc]; rfl) hline hlooked

/-- When the stream ends in a terminator the reader holds nothing in the end. -/
theorem pending_eq_nil {taken : List α} {as : List (Arrival α ε)} (htaken : ∀ a ∈ taken, p a = false)
    (h : EndsIn p (taken ++ items as)) : pending p taken as = [] := by
  induction as generalizing taken with
  | nil =>
    rw [items_nil, List.append_nil] at h
    exact h.eq_nil_of_free htaken
  | cons b as ih =>
    cases b with
    | item a =>
      unfold pending
      rw [items_item, List.append_cons] at h
      by_cases ha : p a = true
      · rw [if_pos ha]
        exact ih free_nil h.of_append
      · rw [if_neg ha]
        apply ih _ h
        intro b hb
        rcases List.mem_append.mp hb with hb | hb
        · exact htaken b hb
        · exact List.mem_singleton.mp hb ▸ Bool.eq_false_iff.mpr ha
    | cut e => exact ih free_nil h.of_append

end Found
