import Mathlib.Data.List.TakeWhile

/-!
# Words of a text

A text cut at its separators falls into words: the maximal runs that hold no separator
(`mem_words_iff`). A separator cuts the words on its two sides apart, whatever stands there
(`words_append_cons`), so more text behind a separator adds words and changes none. A part of the text
that holds no separator lies on one of its sides (`infix_append_cons_iff`), and what stands around it in
its word is read off the text around it (`part_of_word_iff`).
-/

namespace Found

variable {α : Type*}

/-! ## Words -/

/-- The words of a list, in order. -/
def words (p : α → Bool) (l : List α) : List (List α) := (l.splitOnP p).filter (!·.isEmpty)

/-- Nothing, or a list that ends in a separator. -/
def EndsIn (p : α → Bool) (l : List α) : Prop := ∀ a ∈ l.getLast?, p a = true

instance (p : α → Bool) (l : List α) : Decidable (EndsIn p l) :=
  inferInstanceAs (Decidable (∀ a ∈ l.getLast?, p a = true))

/-- Nothing, or a list that begins with a separator. -/
def BeginsWith (p : α → Bool) (l : List α) : Prop := ∀ a ∈ l.head?, p a = true

variable {p : α → Bool}

/-- What a check of the elements one by one finds. -/
theorem forall_of_all {P : α → Prop} [DecidablePred P] {l : List α}
    (h : l.all (fun a => decide (P a)) = true) : ∀ a ∈ l, P a :=
  fun a ha => of_decide_eq_true (List.all_eq_true.mp h a ha)

theorem forall_of_all_not {l : List α} (h : l.all (fun a => !p a) = true) : ∀ a ∈ l, p a = false := by
  intro a ha
  have hnot := List.all_eq_true.mp h a ha
  rw [Bool.not_eq_true'] at hnot
  exact hnot

/-- A list is cut in front of its first separator. -/
theorem exists_append_beginsWith (p : α → Bool) (l : List α) :
    ∃ m n, l = m ++ n ∧ (∀ a ∈ m, p a = false) ∧ BeginsWith p n := by
  refine ⟨l.takeWhile fun a => !p a, l.dropWhile fun a => !p a,
    List.takeWhile_append_dropWhile.symm, ?_, ?_⟩
  · intro a ha
    simpa using List.mem_takeWhile_imp ha
  · intro a ha
    have h := List.head?_dropWhile_not (fun a => !p a) l
    rw [Option.mem_def.mp ha] at h
    simpa using h

/-- A property of lists without separators that two lists hand on to the list of both with a separator
between them is one of all lists. -/
@[elab_as_elim]
theorem separator_induction {motive : List α → Prop} (l : List α)
    (free : ∀ l, (∀ a ∈ l, p a = false) → motive l)
    (cut : ∀ l s m, p s = true → motive l → motive m → motive (l ++ s :: m)) :
    motive l := by
  induction hn : l.length using Nat.strongRecOn generalizing l with
  | ind n ih =>
    obtain ⟨m, r, rfl, hm, hr⟩ := exists_append_beginsWith p l
    cases r with
    | nil =>
      rw [List.append_nil]
      exact free m hm
    | cons s r =>
      rw [List.length_append, List.length_cons] at hn
      exact cut m s r (hr s rfl) (free m hm) (ih r.length (by omega) r rfl)

theorem words_nil : words p [] = [] := rfl

/-- A separator cuts the words on its two sides apart. -/
theorem words_append_cons {s : α} (hs : p s = true) (l m : List α) :
    words p (l ++ s :: m) = words p l ++ words p m := by
  unfold words
  rw [List.splitOnP_append_cons l m hs, List.filter_append]

theorem words_cons {s : α} (hs : p s = true) (l : List α) : words p (s :: l) = words p l :=
  words_append_cons hs [] l

/-- A run without separators is one word. -/
theorem words_of_free {l : List α} (hl : ∀ a ∈ l, p a = false) (hne : l ≠ []) :
    words p l = [l] := by
  unfold words
  rw [List.splitOnP_eq_singleton hl]
  cases l with
  | nil => exact absurd rfl hne
  | cons a l => rfl

/-- Words of changed elements are the changed words. -/
theorem words_map {β : Type*} {p : β → Bool} (f : α → β) (l : List α) :
    words p (l.map f) = (words (fun a => p (f a)) l).map (List.map f) := by
  induction l using separator_induction (p := fun a => p (f a)) with
  | free l hl =>
    by_cases hne : l = []
    · subst hne
      rfl
    · have hfree : ∀ b ∈ l.map f, p b = false := by
        intro b hb
        obtain ⟨a, ha, rfl⟩ := List.mem_map.mp hb
        exact hl a ha
      rw [words_of_free hl hne, words_of_free hfree (List.map_eq_nil_iff.not.mpr hne)]
      rfl
  | cut l s m hs ihl ihm =>
    rw [List.map_append, List.map_cons, words_append_cons hs, words_append_cons (s := s) hs, ihl, ihm,
      List.map_append]

theorem endsIn_nil : EndsIn p [] := nofun

theorem endsIn_snoc {l : List α} {s : α} (hs : p s = true) : EndsIn p (l ++ [s]) := by
  intro a ha
  rw [List.getLast?_append] at ha
  cases ha
  exact hs

theorem EndsIn.eq_nil_or_snoc {l : List α} (h : EndsIn p l) :
    l = [] ∨ ∃ l' s, l = l' ++ [s] ∧ p s = true := by
  rcases List.eq_nil_or_concat l with rfl | ⟨l', s, rfl⟩
  · exact .inl rfl
  · rw [List.concat_eq_append] at h ⊢
    exact .inr ⟨l', s, rfl, h s (by rw [List.getLast?_append]; rfl)⟩

/-- Text that ends in a separator adds its words in front. -/
theorem words_append_left {l m : List α} (h : EndsIn p l) :
    words p (l ++ m) = words p l ++ words p m := by
  rcases h.eq_nil_or_snoc with rfl | ⟨l', s, rfl, hs⟩
  · rfl
  · rw [List.append_assoc, List.singleton_append, words_append_cons hs, words_append_cons hs,
      words_nil, List.append_nil]

/-- Text that begins with a separator adds its words behind. -/
theorem words_append_right {l m : List α} (h : BeginsWith p m) :
    words p (l ++ m) = words p l ++ words p m := by
  cases m with
  | nil => rw [List.append_nil, words_nil, List.append_nil]
  | cons s m =>
    have hs : p s = true := h s rfl
    rw [words_append_cons hs, words_cons hs]

/-- **The words of a list are its maximal runs without separators.** -/
theorem mem_words_iff {l w : List α} :
    w ∈ words p l ↔ w ≠ [] ∧ (∀ a ∈ w, p a = false) ∧
      ∃ u v, l = u ++ w ++ v ∧ EndsIn p u ∧ BeginsWith p v := by
  constructor
  · intro h
    induction l using separator_induction (p := p) with
    | free l hl =>
      by_cases hne : l = []
      · subst hne
        cases h
      · rw [words_of_free hl hne, List.mem_singleton] at h
        subst h
        exact ⟨hne, hl, [], [], (List.append_nil _).symm, nofun, nofun⟩
    | cut l s m hs ihl ihm =>
      -- the word lies on one side of the separator
      rw [words_append_cons hs] at h
      rcases List.mem_append.mp h with hx | hy
      · obtain ⟨hne, hw, u, v, rfl, hu, hv⟩ := ihl hx
        refine ⟨hne, hw, u, v ++ s :: m, by simp only [List.append_assoc], hu, ?_⟩
        intro a ha
        cases v with
        | nil =>
          cases ha
          exact hs
        | cons b v => exact hv a ha
      · obtain ⟨hne, hw, u, v, rfl, hu, hv⟩ := ihm hy
        refine ⟨hne, hw, l ++ s :: u, v, by simp only [List.append_assoc, List.cons_append],
          ?_, hv⟩
        rcases hu.eq_nil_or_snoc with rfl | ⟨u', t, rfl, ht⟩
        · exact endsIn_snoc hs
        · rw [← List.cons_append, ← List.append_assoc]
          exact endsIn_snoc ht
  · rintro ⟨hne, hw, u, v, rfl, hu, hv⟩
    rw [words_append_right hv, words_append_left hu, words_of_free hw hne]
    exact List.mem_append_left _ (List.mem_append_right _ (List.mem_singleton_self w))

/-! ## Parts -/

/-- **A part without the separator lies on one side of it.** -/
theorem infix_append_cons_iff {part l m : List α} {s : α} (hs : s ∉ part) :
    part <:+: l ++ s :: m ↔ part <:+: l ∨ part <:+: m := by
  constructor
  · intro h
    rcases List.infix_append_iff.mp h with hl | hright | ⟨l₁, l₂, rfl, hl₁, hl₂⟩
    · exact .inl hl
    · rcases List.infix_cons_iff.mp hright with hfront | hm
      · -- a part in front of the separator would hold it
        rcases List.prefix_cons_iff.mp hfront with rfl | ⟨part, rfl, -⟩
        · exact .inl List.nil_infix
        · exact absurd List.mem_cons_self hs
      · exact .inr hm
    · -- so would one that reaches over it
      rcases List.prefix_cons_iff.mp hl₂ with rfl | ⟨l₂, rfl, -⟩
      · rw [List.append_nil]
        exact .inl hl₁.isInfix
      · exact absurd (List.mem_append_right l₁ List.mem_cons_self) hs
  · rintro (hl | hm)
    · exact List.infix_append_of_infix_left hl
    · exact List.infix_append_of_infix_right (List.infix_cons hm)

/-- What stands before the first separator. -/
def firstRun (p : α → Bool) (l : List α) : List α := l.takeWhile fun a => !p a

/-- What stands behind the last separator. -/
def lastRun (p : α → Bool) (l : List α) : List α := (firstRun p l.reverse).reverse

theorem endsIn_iff_reverse {l : List α} : EndsIn p l ↔ BeginsWith p l.reverse := by
  unfold EndsIn BeginsWith
  rw [List.head?_reverse]

theorem firstRun_append {x v : List α} (hx : ∀ a ∈ x, p a = false) (hv : BeginsWith p v) :
    firstRun p (x ++ v) = x := by
  have hrun : ∀ a ∈ x, (!p a) = true := by
    intro a ha
    rw [hx a ha, Bool.not_false]
  have hrest : v.takeWhile (fun a => !p a) = [] := by
    cases v with
    | nil => rfl
    | cons s v => rw [List.takeWhile_cons, hv s rfl]; rfl
  rw [firstRun, List.takeWhile_append_of_pos hrun, hrest, List.append_nil]

theorem lastRun_append {u x : List α} (hu : EndsIn p u) (hx : ∀ a ∈ x, p a = false) :
    lastRun p (u ++ x) = x := by
  have hrev : ∀ a ∈ x.reverse, p a = false := fun a ha => hx a (List.mem_reverse.mp ha)
  rw [lastRun, List.reverse_append, firstRun_append hrev (endsIn_iff_reverse.mp hu),
    List.reverse_reverse]

theorem exists_append_firstRun (p : α → Bool) (l : List α) :
    ∃ v, l = firstRun p l ++ v ∧ (∀ a ∈ firstRun p l, p a = false) ∧ BeginsWith p v := by
  obtain ⟨x, v, rfl, hx, hv⟩ := exists_append_beginsWith p l
  rw [firstRun_append hx hv]
  exact ⟨v, rfl, hx, hv⟩

theorem exists_append_lastRun (p : α → Bool) (l : List α) :
    ∃ u, l = u ++ lastRun p l ∧ (∀ a ∈ lastRun p l, p a = false) ∧ EndsIn p u := by
  obtain ⟨v, hl, hrun, hv⟩ := exists_append_firstRun p l.reverse
  refine ⟨v.reverse, ?_, fun a ha => hrun a (List.mem_reverse.mp ha), ?_⟩
  · rw [lastRun, ← List.reverse_append, ← hl, List.reverse_reverse]
  · rw [endsIn_iff_reverse, List.reverse_reverse]
    exact hv

theorem firstRun_eq_nil_iff {l : List α} : firstRun p l = [] ↔ BeginsWith p l := by
  constructor
  · intro hnil
    obtain ⟨v, hl, -, hv⟩ := exists_append_firstRun p l
    rw [hl, hnil]
    exact hv
  · intro hl
    exact firstRun_append (x := []) (List.forall_mem_nil _) hl

theorem lastRun_eq_nil_iff {l : List α} : lastRun p l = [] ↔ EndsIn p l := by
  rw [lastRun, List.reverse_eq_nil_iff, firstRun_eq_nil_iff, endsIn_iff_reverse]

/-- Text without separators behind a list is part of its last run. -/
theorem lastRun_append_free {l x : List α} (hx : ∀ a ∈ x, p a = false) :
    lastRun p (l ++ x) = lastRun p l ++ x := by
  obtain ⟨u, hl, hrun, hu⟩ := exists_append_lastRun p l
  calc lastRun p (l ++ x)
      = lastRun p (u ++ (lastRun p l ++ x)) := by rw [← List.append_assoc, ← hl]
    _ = lastRun p l ++ x := lastRun_append hu (List.forall_mem_append.mpr ⟨hrun, hx⟩)

/-- **What stands around a part in its word** is the text on both sides, up to the next separator. -/
theorem part_of_word_iff {part l : List α} {P : List α → List α → Prop}
    (hfree : ∀ a ∈ part, p a = false) (hne : part ≠ []) :
    (∃ x y, x ++ part ++ y ∈ words p l ∧ P x y) ↔
      ∃ u v, l = u ++ part ++ v ∧ P (lastRun p u) (firstRun p v) := by
  constructor
  · rintro ⟨x, y, hword, hP⟩
    obtain ⟨-, hrun, u, v, rfl, hu, hv⟩ := mem_words_iff.mp hword
    obtain ⟨hleft, hy⟩ := List.forall_mem_append.mp hrun
    obtain ⟨hx, -⟩ := List.forall_mem_append.mp hleft
    refine ⟨u ++ x, y ++ v, by simp only [List.append_assoc], ?_⟩
    rw [lastRun_append hu hx, firstRun_append hy hv]
    exact hP
  · rintro ⟨u, v, rfl, hP⟩
    obtain ⟨u', hu, hx, hends⟩ := exists_append_lastRun p u
    obtain ⟨v', hv, hy, hbegins⟩ := exists_append_firstRun p v
    refine ⟨lastRun p u, firstRun p v, mem_words_iff.mpr ⟨?_, ?_, u', v', ?_, hends, hbegins⟩, hP⟩
    · exact List.append_ne_nil_of_left_ne_nil (List.append_ne_nil_of_right_ne_nil _ hne) _
    · exact List.forall_mem_append.mpr ⟨List.forall_mem_append.mpr ⟨hx, hfree⟩, hy⟩
    · calc u ++ part ++ v
          = (u' ++ lastRun p u) ++ part ++ (firstRun p v ++ v') := by rw [← hu, ← hv]
        _ = u' ++ (lastRun p u ++ part ++ firstRun p v) ++ v' := by simp only [List.append_assoc]

end Found
