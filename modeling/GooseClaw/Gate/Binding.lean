import GooseClaw.Gate.Rule9

/-!
# What an action hash binds

`ActionHash` is documented to bind an approval to exactly one action. The bytes it covers join the
three fields with in-band `0x00`, and a Rust string may hold `0x00`, so two different actions can
have the same preimage. This module says for which actions the documented law holds.

`ActionRequest.Unambiguous` is a condition on one action alone: no NUL in its actor or summary, and
no `0x00` in its payload behind a prefix that could itself be text. `preimage_determines_iff` is
the exact statement: these, and only these, are the actions whose preimage no other action has.
-/

namespace GooseClaw

open Found

namespace ActionRequest

/-- No `0x00` of the action can be taken for a separator: the text fields hold none, and every one
in the payload stands behind bytes that are no text. -/
structure Unambiguous (a : ActionRequest) : Prop where
  actor : '\x00' ∉ a.actor.toList
  summary : '\x00' ∉ a.summary.toList
  payload : ∀ (s : String) (rest : List UInt8), a.payload ≠ utf8 s ++ 0 :: rest

private theorem nul_ascii : '\x00'.toNat < 128 := by decide

/-- A NUL in a text cuts its bytes at a `0x00` between the bytes of two texts. -/
theorem utf8_cut_nul {s : String} (h : '\x00' ∈ s.toList) :
    ∃ s₁ s₂ : String, s₁ ≠ s ∧ utf8 s = utf8 s₁ ++ 0 :: utf8 s₂ := by
  obtain ⟨l₁, l₂, hl⟩ := List.append_of_mem h
  refine ⟨String.ofList l₁, String.ofList l₂, ?_, ?_⟩
  · rintro rfl
    rw [String.toList_ofList] at hl
    simpa using congrArg List.length hl
  · rw [utf8_eq_flatMap, hl, List.flatMap_append, List.flatMap_cons, utf8_ofList, utf8_ofList,
      utf8EncodeChar_ascii nul_ascii]
    rfl

/-- An action whose `0x00`s can be taken for separators shares its preimage with another action. -/
theorem exists_collision {a : ActionRequest} (h : ¬ a.Unambiguous) :
    ∃ b : ActionRequest, b.preimage = a.preimage ∧ b ≠ a := by
  by_cases hactor : '\x00' ∈ a.actor.toList
  · obtain ⟨s₁, s₂, hne, hcut⟩ := utf8_cut_nul hactor
    refine ⟨⟨s₁, s₂, utf8 a.summary ++ 0 :: a.payload⟩, ?_, fun heq => hne (congrArg actor heq)⟩
    simp only [preimage, hcut, List.append_assoc, List.cons_append]
  · by_cases hsummary : '\x00' ∈ a.summary.toList
    · obtain ⟨s₁, s₂, hne, hcut⟩ := utf8_cut_nul hsummary
      refine ⟨⟨a.actor, s₁, utf8 s₂ ++ 0 :: a.payload⟩, ?_,
        fun heq => hne (congrArg summary heq)⟩
      simp only [preimage, hcut, List.append_assoc, List.cons_append]
    · have hpayload : ∃ s rest, a.payload = utf8 s ++ 0 :: rest := by
        by_contra hno
        exact h ⟨hactor, hsummary, fun s rest heq => hno ⟨s, rest, heq⟩⟩
      obtain ⟨s, rest, hcut⟩ := hpayload
      refine ⟨⟨a.actor, a.summary ++ "\x00" ++ s, rest⟩, ?_, ?_⟩
      · have hnul : utf8 "\x00" = [0] := by decide
        simp only [preimage, hcut, utf8_append, hnul, List.append_assoc, List.cons_append,
          List.nil_append]
      · intro heq
        have hlen := congrArg (List.length ∘ ActionRequest.payload) heq
        simp only [Function.comp_apply, hcut, List.length_append, List.length_cons] at hlen
        omega

private theorem nul_not_mem {s : String} (h : '\x00' ∉ s.toList) : (0 : UInt8) ∉ utf8 s :=
  asciiByte_not_mem_utf8 nul_ascii h

/-- A text that goes on past a `0x00` is a text behind it. -/
theorem utf8_after_nul {s : String} {u w : List UInt8} (h : utf8 s = u ++ 0 :: w) :
    ∃ t : String, utf8 t = w := by
  obtain ⟨-, t, -, -, ht⟩ := utf8_eq_append_cons nul_ascii h
  exact ⟨t, ht⟩

/-- An unambiguous action is the only one with its preimage. The first separator is found because
the actor holds no `0x00`, then the second because the summary holds none; wherever the other
action cuts later, it finds text before a `0x00` of the payload. -/
theorem Unambiguous.determines {a : ActionRequest} (h : a.Unambiguous) {b : ActionRequest}
    (heq : b.preimage = a.preimage) : b = a := by
  have notText : ∀ t w, utf8 t ++ 0 :: w ≠ a.payload := fun t w he => h.payload t w he.symm
  unfold preimage at heq
  rcases append_cons_cases heq (nul_not_mem h.actor) with ⟨hactor, hrest⟩ | ⟨w, hactor, hrest⟩
  · rcases append_cons_cases hrest (nul_not_mem h.summary) with
      ⟨hsummary, hpayload⟩ | ⟨v, hsummary, hpayload⟩
    · obtain ⟨actor, summary, payload⟩ := b
      simp only [utf8_inj] at hactor hsummary
      subst hactor hsummary hpayload
      rfl
    · obtain ⟨t, rfl⟩ := utf8_after_nul hsummary
      exact absurd hpayload.symm (notText t b.payload)
  · obtain ⟨t, rfl⟩ := utf8_after_nul hactor
    rcases append_cons_cases hrest.symm (nul_not_mem h.summary) with
      ⟨-, hpayload⟩ | ⟨v, ht, hpayload⟩
    · exact absurd hpayload (notText b.summary b.payload)
    · obtain ⟨t', rfl⟩ := utf8_after_nul ht
      exact absurd hpayload.symm (notText t' _)

/-- **Exactly the unambiguous actions are determined by the bytes their hash covers.** -/
theorem preimage_determines_iff (a : ActionRequest) :
    (∀ b : ActionRequest, b.preimage = a.preimage → b = a) ↔ a.Unambiguous := by
  constructor
  · intro hall
    by_contra hno
    obtain ⟨b, hpre, hne⟩ := exists_collision hno
    exact hne (hall b hpre)
  · intro h b
    exact h.determines

/-! ## What the gate then accepts -/

/-- The binding law of one action: no other action has its preimage, and an approval signed for its
hash is refused on the handle of any other action, whatever the gate's state and the clock. The
digest is taken to be free of collisions on the two preimages, and the signature to verify for one
message only. -/
def Binds (cr : Crypto) (a : ActionRequest) : Prop :=
  (∀ b : ActionRequest, b.preimage = a.preimage → b = a) ∧
  ∀ (b : ActionRequest) (ap : Approval), b ≠ a →
    (cr.sha256 b.preimage = cr.sha256 a.preimage → b.preimage = a.preimage) →
    ap.SignsOneMessage cr → ap.SignedFor cr (a.hash cr) →
    ∀ (g : Rule9Gate) (p : PendingAction) (now auditNow : UInt64), p.hash = b.hash cr →
      ∃ e, (g.decide cr p ap now auditNow).1 = .error e

/-- **The gate binds approvals to exactly the unambiguous actions.** -/
theorem binds_iff (cr : Crypto) (a : ActionRequest) : a.Binds cr ↔ a.Unambiguous := by
  constructor
  · intro h
    exact (preimage_determines_iff a).mp h.1
  · intro h
    refine ⟨(preimage_determines_iff a).mpr h, ?_⟩
    intro b ap hne nocollide one signed g p now auditNow hp
    cases hd : (g.decide cr p ap now auditNow).1 with
    | error e => exact ⟨e, rfl⟩
    | ok d =>
      have hb : ap.SignedFor cr (b.hash cr) := hp ▸ (Rule9Gate.accepts_of_ok cr hd).signed
      have hhash := one.action_eq hb signed
      exact absurd (h.determines (preimage_of_hash_eq nocollide hhash)) hne

/-- Two tool calls with one preimage: a NUL in the first one's summary reads as the separator, so
an approval of either hash is an approval of both. -/
theorem preimage_collides :
    (⟨"acp:tool", "a\x00b", []⟩ : ActionRequest).preimage =
      (⟨"acp:tool", "a", [98, 0]⟩ : ActionRequest).preimage ∧
    (⟨"acp:tool", "a\x00b", []⟩ : ActionRequest) ≠ ⟨"acp:tool", "a", [98, 0]⟩ ∧
    ∀ cr : Crypto, (⟨"acp:tool", "a\x00b", []⟩ : ActionRequest).hash cr =
      (⟨"acp:tool", "a", [98, 0]⟩ : ActionRequest).hash cr := by
  have hpre : (⟨"acp:tool", "a\x00b", []⟩ : ActionRequest).preimage =
      (⟨"acp:tool", "a", [98, 0]⟩ : ActionRequest).preimage := by decide
  refine ⟨hpre, by decide, ?_⟩
  intro cr
  unfold hash
  rw [hpre]

end ActionRequest

end GooseClaw
