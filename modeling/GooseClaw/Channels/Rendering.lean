import GooseClaw.Channels.Inbound
import GooseClaw.Payments

/-!
# What the human is shown

`ApprovalRenderer::render` of `crates/gooseclaw-channels/src/lib.rs`, and what the rendered text of a
spend tells of it. The rail and the amount can always be read off. The destination and the reason stand
on two sides of ` (` and may hold it themselves; the text then reads as more than one spend
(`render_determines_iff`).
-/

namespace GooseClaw

open Found

/-! ## Rendering -/

/-- `ApprovalRenderer::render`. -/
def ApprovalRenderer.render (action : ActionRequest) : String :=
  "[" ++ stripInvisible action.actor ++ "] " ++ stripInvisible action.summary

/-- A text `strip_invisible` removes nothing from. -/
def Visible (s : String) : Prop := ∀ c ∈ s.toList, isInvisible c = false

instance (s : String) : Decidable (Visible s) :=
  decidable_of_iff (s.toList.all (fun c => !isInvisible c) = true) (by simp [Visible])

/-- A visible text is shown as it is. -/
theorem Visible.strip_eq {s : String} (h : Visible s) : stripInvisible s = s := by
  have hkeep : s.toList.filter (fun c => !isInvisible c) = s.toList := by
    apply List.filter_eq_self.mpr
    intro c hc
    rw [h c hc]
    rfl
  rw [stripInvisible, hkeep, String.ofList_toList]

theorem Visible.append {s t : String} (hs : Visible s) (ht : Visible t) : Visible (s ++ t) := by
  intro c hc
  rw [String.toList_append] at hc
  rcases List.mem_append.mp hc with hc | hc
  · exact hs c hc
  · exact ht c hc

theorem isInvisible_of_isDigit {c : Char} (h : c.isDigit = true) : isInvisible c = false := by
  have hrange : 48 ≤ c.toNat ∧ c.toNat ≤ 57 := by
    simpa [Char.isDigit, UInt32.le_iff_toNat_le] using h
  simp only [isInvisible, Bool.or_eq_false_iff, Bool.and_eq_false_iff, decide_eq_false_iff_not,
    beq_eq_false_iff_ne]
  omega

namespace SpendRequest

/-- Nothing in the destination or the reason is hidden from the human. -/
structure Shown (r : SpendRequest) : Prop where
  destination : Visible r.destination
  reason : Visible r.reason

theorem visible_amountText (r : SpendRequest) : Visible r.amountText := by
  intro c hc
  rw [amountText, Nat.toList_repr] at hc
  exact isInvisible_of_isDigit (Nat.isDigit_of_mem_toDigits (by decide) (by decide) hc)

theorem visible_actor (r : SpendRequest) : Visible r.actor := by
  unfold actor
  cases r.rail <;> decide

variable {r r' : SpendRequest}

/-- The rendered text of a spend without hidden characters, letter by letter. -/
theorem Shown.render_toList (h : r.Shown) :
    (ApprovalRenderer.render r.action).toList =
      '[' :: (r.actor.toList ++ ']' :: (" spend ".toList ++ (r.amountText.toList ++
        ' ' :: ("msat to ".toList ++
          (r.destination.toList ++ ' ' :: '(' :: r.reason.toList ++ [')']))))) := by
  have hsummary : Visible r.summary :=
    (((((Visible.append (by decide) r.visible_amountText).append (by decide)).append
      h.destination).append (by decide)).append h.reason).append (by decide)
  unfold ApprovalRenderer.render
  rw [show stripInvisible r.action.actor = r.actor from r.visible_actor.strip_eq,
    show stripInvisible r.action.summary = r.summary from hsummary.strip_eq]
  simp [summary]

theorem bracket_not_mem_actor (r : SpendRequest) : ']' ∉ r.actor.toList := by
  unfold actor
  cases r.rail <;> decide

theorem blank_not_mem_amountText (r : SpendRequest) : ' ' ∉ r.amountText.toList := by
  intro hmem
  rw [amountText, Nat.toList_repr] at hmem
  exact absurd (Nat.isDigit_of_mem_toDigits (by decide) (by decide) hmem) (by decide)

/-- Two spends are shown alike exactly when they agree in the rail, the amount and the text that
destination and reason make together. -/
theorem Shown.render_eq_iff (h : r.Shown) (h' : r'.Shown) :
    ApprovalRenderer.render r.action = ApprovalRenderer.render r'.action ↔
      r.rail = r'.rail ∧ r.amountMsat = r'.amountMsat ∧
        r.destination.toList ++ ' ' :: '(' :: r.reason.toList =
          r'.destination.toList ++ ' ' :: '(' :: r'.reason.toList := by
  rw [← String.toList_inj, h.render_toList, h'.render_toList]
  constructor
  · intro heq
    obtain ⟨hactor, hrest⟩ := append_cons_inj (List.cons.inj heq).2 r.bracket_not_mem_actor
      r'.bracket_not_mem_actor
    rw [List.append_cancel_left_eq] at hrest
    obtain ⟨hamount, hrest⟩ :=
      append_cons_inj hrest r.blank_not_mem_amountText r'.blank_not_mem_amountText
    rw [List.append_cancel_left_eq, List.append_cancel_right_eq] at hrest
    exact ⟨rail_of_actor (String.toList_inj.mp hactor),
      amountText_inj (String.toList_inj.mp hamount), hrest⟩
  · rintro ⟨hrail, hamount, htexts⟩
    have hactor : r.actor = r'.actor := by rw [actor, actor, hrail]
    have hdigits : r.amountText = r'.amountText := by rw [amountText, amountText, hamount]
    rw [hactor, hdigits, htexts]

/-- ` (` occurs in the text. -/
def HoldsOpen (s : String) : Prop := ' ' :: '(' :: [] <:+: s.toList

/-- A text with ` (` in it, cut there. -/
theorem HoldsOpen.cut {s : String} (h : HoldsOpen s) :
    ∃ x y : String, s.toList = x.toList ++ ' ' :: '(' :: y.toList := by
  obtain ⟨x, y, hxy⟩ := h
  refine ⟨String.ofList x, String.ofList y, ?_⟩
  rw [String.toList_ofList, String.toList_ofList, ← hxy, List.append_assoc]
  rfl

theorem holdsOpen_of_cut {s : String} {x y : List Char} (h : s.toList = x ++ ' ' :: '(' :: y) :
    HoldsOpen s := by
  refine ⟨x, y, ?_⟩
  rw [h, List.append_assoc]
  rfl

/-- A text of two visible parts around ` (` has visible parts. -/
theorem visible_parts {s x y : String} (h : Visible s)
    (hxy : s.toList = x.toList ++ ' ' :: '(' :: y.toList) : Visible x ∧ Visible y := by
  unfold Visible at h
  rw [hxy] at h
  constructor
  · intro c hc
    exact h c (List.mem_append_left _ hc)
  · intro c hc
    exact h c (List.mem_append_right _ (List.mem_cons_of_mem _ (List.mem_cons_of_mem _ hc)))

/-- A destination with ` (` can end there, and the rest of it be read as the reason's. -/
theorem Shown.shorter_destination (h : r.Shown) (hopen : HoldsOpen r.destination) :
    ∃ r' : SpendRequest, r'.Shown ∧
      ApprovalRenderer.render r.action = ApprovalRenderer.render r'.action ∧
      r'.destination ≠ r.destination := by
  obtain ⟨x, y, hxy⟩ := hopen.cut
  obtain ⟨hx, hy⟩ := visible_parts h.destination hxy
  have hshown : Shown ⟨r.amountMsat, r.rail, x, y ++ " (" ++ r.reason⟩ :=
    ⟨hx, (hy.append (by decide)).append h.reason⟩
  refine ⟨_, hshown, (h.render_eq_iff hshown).mpr ⟨rfl, rfl, ?_⟩, ?_⟩
  · simp [hxy]
  · intro heq
    have hlength := congrArg List.length hxy
    rw [← show x = r.destination from heq, List.length_append, List.length_cons,
      List.length_cons] at hlength
    omega

/-- A reason with ` (` can begin behind it, and what stands before be read as the destination's. -/
theorem Shown.shorter_reason (h : r.Shown) (hopen : HoldsOpen r.reason) :
    ∃ r' : SpendRequest, r'.Shown ∧
      ApprovalRenderer.render r.action = ApprovalRenderer.render r'.action ∧
      r'.reason ≠ r.reason := by
  obtain ⟨x, y, hxy⟩ := hopen.cut
  obtain ⟨hx, hy⟩ := visible_parts h.reason hxy
  have hshown : Shown ⟨r.amountMsat, r.rail, r.destination ++ " (" ++ x, y⟩ :=
    ⟨(h.destination.append (by decide)).append hx, hy⟩
  refine ⟨_, hshown, (h.render_eq_iff hshown).mpr ⟨rfl, rfl, ?_⟩, ?_⟩
  · simp [hxy]
  · intro heq
    have hlength := congrArg List.length hxy
    rw [← show y = r.reason from heq, List.length_append, List.length_cons,
      List.length_cons] at hlength
    omega

/-- **When the human sees which spend it is.** The text of a spend is the text of no other spend, with
nothing hidden in either, exactly when ` (` occurs neither in its destination nor in its reason. -/
theorem render_determines_iff (h : r.Shown) :
    (∀ r' : SpendRequest, r'.Shown →
        ApprovalRenderer.render r.action = ApprovalRenderer.render r'.action →
        r'.rail = r.rail ∧ r'.amountMsat = r.amountMsat ∧ r'.destination = r.destination ∧
          r'.reason = r.reason) ↔
      ¬ HoldsOpen r.destination ∧ ¬ HoldsOpen r.reason := by
  constructor
  · intro hall
    constructor
    · intro hopen
      obtain ⟨r', h', heq, hne⟩ := h.shorter_destination hopen
      exact hne (hall r' h' heq).2.2.1
    · intro hopen
      obtain ⟨r', h', heq, hne⟩ := h.shorter_reason hopen
      exact hne (hall r' h' heq).2.2.2
  · rintro ⟨hdest, hreason⟩ r' h' heq
    obtain ⟨hrail, hamount, htexts⟩ := (h.render_eq_iff h').mp heq
    rcases append_pair_cases (by decide) htexts with ⟨hd, hr⟩ | ⟨w, hw, -⟩ | ⟨w, -, hw⟩
    · exact ⟨hrail.symm, hamount.symm, (String.toList_inj.mp hd).symm, (String.toList_inj.mp hr).symm⟩
    · exact absurd (holdsOpen_of_cut hw) hdest
    · exact absurd (holdsOpen_of_cut hw) hreason

/-- A spend without ` (` in its parts is not shown like one to another destination. -/
theorem render_determines_iff_sample :
    ApprovalRenderer.render (action ⟨1000, .zap, "npub1bob", "lunch"⟩) ≠
      ApprovalRenderer.render (action ⟨1000, .zap, "npub1eve", "lunch"⟩) := by
  have hshown : Shown ⟨1000, .zap, "npub1bob", "lunch"⟩ := ⟨by decide, by decide⟩
  have hfree : ¬ HoldsOpen "npub1bob" ∧ ¬ HoldsOpen "lunch" := by
    unfold HoldsOpen
    decide
  intro heq
  have hsame := (render_determines_iff hshown).mpr hfree ⟨1000, .zap, "npub1eve", "lunch"⟩
    ⟨by decide, by decide⟩ heq
  exact absurd hsame.2.2.1 (by decide)

/-- Two spends to two destinations are shown as one text. -/
theorem two_spends_shown_alike :
    ¬ ∀ r r' : SpendRequest, r.Shown → r'.Shown →
      ApprovalRenderer.render r.action = ApprovalRenderer.render r'.action →
      r.rail = r'.rail ∧ r.amountMsat = r'.amountMsat ∧ r.destination = r'.destination ∧
        r.reason = r'.reason := by
  intro hall
  have h := hall ⟨1000, .lightning, "bob (work)", "lunch"⟩ ⟨1000, .lightning, "bob", "work) (lunch"⟩
    ⟨by decide, by decide⟩ ⟨by decide, by decide⟩ (by decide)
  exact absurd h.2.2.1 (by decide)

end SpendRequest

end GooseClaw
