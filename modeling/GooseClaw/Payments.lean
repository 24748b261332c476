import Mathlib.Algebra.GroupWithZero.Nat
import Mathlib.Data.Set.Function
import GooseClaw.Gate.Rule9

/-!
# Payments

`crates/gooseclaw-payments/src/lib.rs`: a spend request becomes an action, and the core gate decides
it. The facade holds a cap and a gate, and no authority of its own.

The three texts a spend is turned into are each ambiguous: the payload `amount|destination|reason`
and the summary `spend … msat to … (…)` can be cut in several ways, and the hash covers them with an
in-band separator. Together they are not: `SpendRequest.preimage_inj` recovers the whole request,
because the destination and the reason are joined once behind a space and once behind a bar. With
the gate's nonces this gives what a run of spends may pay (`PaymentGate.run_pays_as_signed`).

The facade reads the cap for one spend and not the one for a day. `PaymentGate.run_within_daily_iff` says
which runs stay within both.
-/

namespace GooseClaw

open Found

/-! ## Requests -/

inductive Rail
  | lightning
  | cashuP2pk
  | zap
  deriving DecidableEq

/-- The derived `Debug` text of a rail. -/
def Rail.debug : Rail → String
  | .lightning => "Lightning"
  | .cashuP2pk => "CashuP2pk"
  | .zap => "Zap"

structure SpendRequest where
  amountMsat : UInt64
  rail : Rail
  destination : String
  reason : String
  deriving DecidableEq

/-- `daily_msat` is stored and read nowhere. -/
structure SpendingCaps where
  perSpendMsat : UInt64
  dailyMsat : UInt64

inductive SpendError
  | overCap
  | gate (e : GateError)
  deriving DecidableEq

/-- `impl Display for SpendError`. -/
def SpendError.display : SpendError → String
  | .overCap => "spend exceeds configured cap"
  | .gate e => "gate: " ++ e.display

/-- `str::to_lowercase` on ASCII text, which is all it is applied to here. -/
def asciiToLowercase (s : String) : String := String.ofList (s.toList.map Char.toLower)

namespace SpendRequest

/-- The amount as `format!` writes it. -/
def amountText (r : SpendRequest) : String := r.amountMsat.toNat.repr

def actor (r : SpendRequest) : String := asciiToLowercase ("payments:" ++ r.rail.debug)

def summary (r : SpendRequest) : String :=
  "spend " ++ r.amountText ++ " msat to " ++ r.destination ++ " (" ++ r.reason ++ ")"

def payload (r : SpendRequest) : List UInt8 :=
  utf8 (r.amountText ++ "|" ++ r.destination ++ "|" ++ r.reason)

/-- The action `request_spend` submits. -/
def action (r : SpendRequest) : ActionRequest := ⟨r.actor, r.summary, r.payload⟩

end SpendRequest

/-! ## The facade -/

/-- The trait `GateCaller`. The two clock readings are those the gate takes during the call. -/
structure GateCaller (G : Type) where
  submitAndDecide : G → ActionRequest → Approval → UInt64 → UInt64 →
    Except GateError Decision × G

/-- `impl GateCaller for Rule9Gate`. -/
def Rule9Gate.gateCaller (cr : Crypto) : GateCaller Rule9Gate where
  submitAndDecide g action approval now auditNow :=
    g.submitAndDecide cr action approval now auditNow

/-- Payments facade: caps and the gate it calls. -/
structure PaymentGate (G : Type) where
  caps : SpendingCaps
  gate : G

namespace PaymentGate

/-- Pre-gate cap check, then the gate decides. -/
def requestSpend {G : Type} (caller : GateCaller G) (pg : PaymentGate G) (req : SpendRequest)
    (approval : Approval) (now auditNow : UInt64) :
    Except SpendError Decision × PaymentGate G :=
  if req.amountMsat > pg.caps.perSpendMsat then (.error .overCap, pg)
  else
    let (result, gate) := caller.submitAndDecide pg.gate req.action approval now auditNow
    (result.mapError SpendError.gate, { pg with gate })

/-- A spend over the cap never reaches the gate, whatever the gate is. -/
theorem requestSpend_overCap {G : Type} (caller : GateCaller G) {pg : PaymentGate G}
    {req : SpendRequest} (h : pg.caps.perSpendMsat < req.amountMsat) (ap : Approval)
    (now auditNow : UInt64) :
    pg.requestSpend caller req ap now auditNow = (.error .overCap, pg) :=
  if_pos h

end PaymentGate

/-! ## What the action of a spend determines -/

namespace SpendRequest

private theorem bytes_spend : utf8 "spend " = [115, 112, 101, 110, 100, 32] := by decide

private theorem bytes_msatTo : utf8 " msat to " = 32 :: [109, 115, 97, 116, 32, 116, 111, 32] := by
  decide

private theorem bytes_open : utf8 " (" = [32, 40] := by decide

private theorem bytes_close : utf8 ")" = [41] := by decide

private theorem bytes_bar : utf8 "|" = [124] := by decide

/-- The bytes behind the first separator, cut at the punctuation of the summary and the payload. -/
theorem bytes_behind_actor (r : SpendRequest) :
    utf8 r.action.summary ++ 0 :: r.action.payload =
      [115, 112, 101, 110, 100, 32] ++ (utf8 r.amountText ++
        32 :: ([109, 115, 97, 116, 32, 116, 111, 32] ++
          ((utf8 r.destination ++ 32 :: [40] ++ utf8 r.reason) ++
            (41 :: 0 :: (utf8 r.amountText ++
              124 :: (utf8 r.destination ++ 124 :: [] ++ utf8 r.reason)))))) := by
  simp only [action, summary, payload, utf8_append, bytes_spend, bytes_msatTo, bytes_open,
    bytes_close, bytes_bar, List.append_assoc, List.cons_append, List.nil_append]

/-- The actor of a spend holds no separator. -/
theorem zero_not_mem_actor (r : SpendRequest) : (0 : UInt8) ∉ utf8 r.actor := by
  unfold actor
  cases r.rail <;> decide

/-- The actor of a spend names its rail. -/
theorem rail_of_actor {r r' : SpendRequest} (h : r.actor = r'.actor) : r.rail = r'.rail := by
  unfold actor at h
  cases hr : r.rail <;> cases hr' : r'.rail <;> rw [hr, hr'] at h <;>
    first | rfl | exact absurd h (by decide)

/-- A decimal number holds no space. -/
theorem space_not_mem_amountText (r : SpendRequest) : (32 : UInt8) ∉ utf8 r.amountText := by
  apply asciiByte_not_mem_utf8 (a := ' ') (by decide)
  intro hmem
  rw [amountText, Nat.toList_repr] at hmem
  exact absurd (Nat.isDigit_of_mem_toDigits (by decide) (by decide) hmem) (by decide)

/-- A decimal number determines the amount. -/
theorem amountText_inj {r r' : SpendRequest} (h : r.amountText = r'.amountText) :
    r.amountMsat = r'.amountMsat := by
  have hd : Nat.toDigits 10 r.amountMsat.toNat = Nat.toDigits 10 r'.amountMsat.toNat := by
    rw [← Nat.toList_repr, ← Nat.toList_repr]
    exact congrArg String.toList h
  apply UInt64.toNat_inj.mp
  calc r.amountMsat.toNat
      = Nat.ofDigitChars 10 (Nat.toDigits 10 r.amountMsat.toNat) 0 :=
        Nat.ofDigitChars_ten_toDigits.symm
    _ = Nat.ofDigitChars 10 (Nat.toDigits 10 r'.amountMsat.toNat) 0 := by rw [hd]
    _ = r'.amountMsat.toNat := Nat.ofDigitChars_ten_toDigits

/-- A summary's tail and a payload behind one amount determine the two texts joined in both. -/
private theorem texts_inj {amount d r d' r' : List UInt8}
    (h : (d ++ 32 :: [40] ++ r) ++ (41 :: 0 :: (amount ++ 124 :: (d ++ 124 :: [] ++ r))) =
      (d' ++ 32 :: [40] ++ r') ++ (41 :: 0 :: (amount ++ 124 :: (d' ++ 124 :: [] ++ r')))) :
    d = d' ∧ r = r' := by
  have hlen : (d ++ 32 :: [40] ++ r).length = (d' ++ 32 :: [40] ++ r').length := by
    have htotal := congrArg List.length h
    simp only [List.length_append, List.length_cons, List.length_nil] at htotal ⊢
    omega
  obtain ⟨hspaced, hbarred⟩ := List.append_inj h hlen
  simp only [List.cons.injEq, true_and, List.append_cancel_left_eq] at hbarred
  exact joined_twice_inj (by decide) hspaced hbarred

/-- **The bytes the gate hashes for a spend determine the spend.** The actor ends at the first
separator, the amount at the first space behind it. What is left holds the destination and the
reason twice; its length tells where the summary ends, and the two ways of joining them tell the
destination from the reason. -/
theorem preimage_inj {r r' : SpendRequest} (h : r.action.preimage = r'.action.preimage) :
    r = r' := by
  obtain ⟨hactor, hrest⟩ := append_cons_inj h r.zero_not_mem_actor r'.zero_not_mem_actor
  have hrail := rail_of_actor (utf8_inj.mp hactor)
  rw [bytes_behind_actor, bytes_behind_actor, List.append_cancel_left_eq] at hrest
  obtain ⟨hamount, hrest⟩ :=
    append_cons_inj hrest r.space_not_mem_amountText r'.space_not_mem_amountText
  have hmsat := amountText_inj (utf8_inj.mp hamount)
  rw [List.append_cancel_left_eq, hamount] at hrest
  obtain ⟨hdest, hreason⟩ := texts_inj hrest
  obtain ⟨amountMsat, rail, destination, reason⟩ := r
  obtain ⟨amountMsat', rail', destination', reason'⟩ := r'
  simp only [mk.injEq]
  exact ⟨hmsat, hrail, utf8_inj.mp hdest, utf8_inj.mp hreason⟩

end SpendRequest

/-! ## Runs of spends -/

/-- One `request_spend`, with the clock readings the gate takes. -/
structure SpendCall where
  req : SpendRequest
  approval : Approval
  now : UInt64
  auditNow : UInt64
  deriving DecidableEq

/-- The spend an exchange pays for. -/
def paid? : SpendCall × Except SpendError Decision → Option SpendCall
  | (c, .ok .approved) => some c
  | _ => none

/-- The spends a run pays for, in order. -/
def paid (log : List (SpendCall × Except SpendError Decision)) : List SpendCall :=
  log.filterMap paid?

namespace PaymentGate

variable (cr : Crypto)

/-- A payment gate over the core gate, serving spends. -/
def service : Service (PaymentGate Rule9Gate) SpendCall (Except SpendError Decision) where
  handle pg c := pg.requestSpend (Rule9Gate.gateCaller cr) c.req c.approval c.now c.auditNow

/-- **What `request_spend` does over the core gate**: it refuses and burns no nonce, or the amount is
within the cap, the gate accepted the approval for the spend's action, and its nonce is burned. -/
theorem requestSpend_cases (pg : PaymentGate Rule9Gate) (c : SpendCall) :
    (∃ e, ((service cr).handle pg c).1 = .error e ∧
      ((service cr).handle pg c).2.caps = pg.caps ∧
      ((service cr).handle pg c).2.gate.usedNonces = pg.gate.usedNonces) ∨
    (c.req.amountMsat ≤ pg.caps.perSpendMsat ∧
      c.approval.SignedFor cr (c.req.action.hash cr) ∧
      c.approval.nonce ∉ pg.gate.usedNonces ∧
      ((service cr).handle pg c).1 = .ok .approved ∧
      ((service cr).handle pg c).2.caps = pg.caps ∧
      ((service cr).handle pg c).2.gate.usedNonces =
        insert c.approval.nonce pg.gate.usedNonces) := by
  by_cases hcap : c.req.amountMsat > pg.caps.perSpendMsat
  · refine .inl ⟨.overCap, ?_⟩
    have h := requestSpend_overCap (Rule9Gate.gateCaller cr) hcap c.approval c.now c.auditNow
    simp only [service, h, and_self]
  · rcases Rule9Gate.submitAndDecide_cases cr pg.gate c.req.action c.approval c.now c.auditNow with
      ⟨e, hd⟩ | ⟨accepts, hd⟩
    · refine .inl ⟨.gate e, ?_⟩
      simp only [service, requestSpend, if_neg hcap, Rule9Gate.gateCaller, hd, Except.mapError,
        Rule9Gate.submit_usedNonces, and_self]
    · refine .inr ⟨UInt64.not_lt.mp hcap, accepts.signed, accepts.freshNonce, ?_⟩
      simp only [service, requestSpend, if_neg hcap, Rule9Gate.gateCaller, hd, Except.mapError,
        Rule9Gate.approve_usedNonces, Rule9Gate.submit_usedNonces, and_self]

/-- The payment gate tied to the spends a run has paid for so far. -/
structure Sound (caps : SpendingCaps) (spends : List SpendCall)
    (pg : PaymentGate Rule9Gate) : Prop where
  caps_eq : pg.caps = caps
  capped : ∀ c ∈ spends, c.req.amountMsat ≤ caps.perSpendMsat
  signed : ∀ c ∈ spends, c.approval.SignedFor cr (c.req.action.hash cr)
  burned : ∀ c ∈ spends, c.approval.nonce ∈ pg.gate.usedNonces
  noncesNodup : (spends.map (·.approval.nonce)).Nodup

/-- **The step lemma.** One spend keeps the payment gate sound for what has been paid. -/
theorem Sound.handle {caps : SpendingCaps} {spends : List SpendCall}
    {pg : PaymentGate Rule9Gate} (s : pg.Sound cr caps spends) (c : SpendCall) :
    ((service cr).handle pg c).2.Sound cr caps
      (spends ++ (paid? (c, ((service cr).handle pg c).1)).toList) := by
  rcases requestSpend_cases cr pg c with
    ⟨e, hreply, hcaps, hnonces⟩ | ⟨hcap, hsigned, hfresh, hreply, hcaps, hnonces⟩
  · simp only [hreply, paid?, Option.toList_none, List.append_nil]
    exact ⟨hcaps.trans s.caps_eq, s.capped, s.signed, by rw [hnonces]; exact s.burned,
      s.noncesNodup⟩
  · simp only [hreply, paid?, Option.toList_some]
    have hnew : c.approval.nonce ∉ spends.map (·.approval.nonce) := by
      intro hmem
      obtain ⟨c', hc', heq⟩ := List.mem_map.mp hmem
      exact hfresh (heq ▸ s.burned c' hc')
    refine ⟨hcaps.trans s.caps_eq, ?_, ?_, ?_, ?_⟩
    · simpa [or_imp, forall_and] using ⟨s.capped, s.caps_eq ▸ hcap⟩
    · simpa [or_imp, forall_and] using ⟨s.signed, hsigned⟩
    · rw [hnonces]
      simpa [or_imp, forall_and] using fun c' hc' => Or.inr (s.burned c' hc')
    · rw [List.map_append, List.map_singleton, List.nodup_append_comm, List.singleton_append,
        List.nodup_cons]
      exact ⟨hnew, s.noncesNodup⟩

/-- **The run lemma.** Every run, from any payment gate, keeps it sound for what the run paid. -/
theorem sound_run (pg : PaymentGate Rule9Gate) (calls : List SpendCall) :
    ((service cr).after pg calls).Sound cr pg.caps (paid ((service cr).exchanges pg calls)) :=
  (service cr).history (P := fun log pg' => pg'.Sound cr pg.caps (paid log))
    ⟨rfl, by simp [paid], by simp [paid], by simp [paid], by simp [paid]⟩
    (fun log pg' c s => by
      simp only [paid, filterMap_snoc]
      exact Sound.handle cr s c)
    calls

/-- A spend that was paid for was one of the calls. -/
theorem mem_of_paid {pg : PaymentGate Rule9Gate} {calls : List SpendCall} {c : SpendCall}
    (h : c ∈ paid ((service cr).exchanges pg calls)) : c ∈ calls := by
  obtain ⟨⟨c', reply⟩, hmem, hpaid⟩ := List.mem_filterMap.mp h
  have hc : c' = c := by
    cases reply with
    | error e => cases hpaid
    | ok d =>
      cases d with
      | approved => exact Option.some.inj hpaid
      | denied => cases hpaid
  rw [← (service cr).exchanges_calls pg calls]
  exact hc ▸ List.mem_map_of_mem hmem

/-- **A run of spends pays as signed.** `S` is a set of byte strings on which the digest is
injective, holding the encodings of the run's spends; the run's signatures verify for one message
each under their key. From any state of the gate, every spend paid for is within the cap and was
signed for; no nonce pays twice; and an approval signed for one spend pays for no other. -/
theorem run_pays_as_signed {cr : Crypto} {S : Set (List UInt8)} (injective : Set.InjOn cr.sha256 S)
    (pg : PaymentGate Rule9Gate) (calls : List SpendCall)
    (encodings : ∀ c ∈ calls, c.req.action.preimage ∈ S)
    (oneMessage : ∀ c ∈ calls, c.approval.SignsOneMessage cr) :
    let spends := paid ((service cr).exchanges pg calls)
    (∀ c ∈ spends, c.req.amountMsat ≤ pg.caps.perSpendMsat ∧
      c.approval.SignedFor cr (c.req.action.hash cr)) ∧
    (spends.map (·.approval.nonce)).Nodup ∧
    ∀ r : SpendRequest, r.action.preimage ∈ S → ∀ c ∈ spends,
      c.approval.SignedFor cr (r.action.hash cr) → c.req = r := by
  have s := sound_run cr pg calls
  refine ⟨fun c hc => ⟨s.capped c hc, s.signed c hc⟩, s.noncesNodup, ?_⟩
  intro r hr c hc hsigned
  have hcalls := mem_of_paid cr hc
  have hhash := (oneMessage c hcalls).action_eq (s.signed c hc) hsigned
  apply SpendRequest.preimage_inj
  exact injective (encodings c hcalls) hr (congrArg ActionHash.bytes hhash)

/-- A spend whose reason is the only thing left open. -/
def sampleSpend (reason : String) : SpendRequest := ⟨5, .lightning, "alice", reason⟩

/-- An approval of the spend for tea. -/
def sampleApproval : Approval :=
  ⟨.fill 32 7, .fill 32 9, 100, .fill 64 0⟩

/-- A digest that tells the sample spends apart, and a key that signed the spend for tea. -/
def sampleCrypto : Crypto where
  sha256 bs := .fill 32 (if bs = (sampleSpend "tea").action.preimage then 1 else 2)
  isKey _ := true
  verify _ m _ := m = sampleApproval.messageFor ⟨.fill 32 1⟩

/-- The approval presented for a spend it was not signed for, for its own, and once more. -/
def sampleCalls : List SpendCall :=
  [⟨sampleSpend "gin", sampleApproval, 60, 61⟩, ⟨sampleSpend "tea", sampleApproval, 62, 62⟩,
    ⟨sampleSpend "tea", sampleApproval, 63, 63⟩]

/-- The run pays once, for the tea. -/
theorem run_pays_as_signed_sample :
    let pg : PaymentGate Rule9Gate := ⟨⟨10, 10⟩, Rule9Gate.new [sampleApproval.pubkey]⟩
    let spends := paid ((service sampleCrypto).exchanges pg sampleCalls)
    spends = [⟨sampleSpend "tea", sampleApproval, 62, 62⟩] ∧
    (spends.map (·.approval.nonce)).Nodup ∧
    ∀ c ∈ spends, c.approval.SignedFor sampleCrypto ((sampleSpend "tea").action.hash sampleCrypto) →
      c.req = sampleSpend "tea" := by
  intro pg spends
  have injective : Set.InjOn sampleCrypto.sha256
      {(sampleSpend "tea").action.preimage, (sampleSpend "gin").action.preimage} := by
    rintro x (rfl | rfl) y (rfl | rfl) <;> decide
  have h := run_pays_as_signed injective pg sampleCalls (by decide)
    (fun c _ m m' hm hm' => (of_decide_eq_true hm).trans (of_decide_eq_true hm').symm)
  exact ⟨by decide, h.2.1, h.2.2 _ (Set.mem_insert _ _)⟩

/-! ## The daily cap -/

/-- What spends come to, in millisatoshi. The sum is no machine integer, so it does not wrap. -/
def spent (spends : List SpendCall) : Nat := (spends.map (·.req.amountMsat.toNat)).sum

theorem spent_append (spends more : List SpendCall) :
    spent (spends ++ more) = spent spends + spent more := by
  rw [spent, List.map_append, List.sum_append, spent, spent]

/-- A payment gate over any gate, serving spends. -/
def serviceOver {G : Type} (caller : GateCaller G) :
    Service (PaymentGate G) SpendCall (Except SpendError Decision) where
  handle pg c := pg.requestSpend caller c.req c.approval c.now c.auditNow

/-- The amount is within the cap for one spend, and the gate approves the spend's action. -/
def Pays {G : Type} (caller : GateCaller G) (pg : PaymentGate G) (c : SpendCall) : Prop :=
  c.req.amountMsat ≤ pg.caps.perSpendMsat ∧
    (caller.submitAndDecide pg.gate c.req.action c.approval c.now c.auditNow).1 = .ok .approved

section Daily

variable {G : Type} {caller : GateCaller G}

/-- The caps stay as they are, and a spend is paid exactly when it `Pays`. -/
theorem serviceOver_handle (pg : PaymentGate G) (c : SpendCall) :
    ((serviceOver caller).handle pg c).2.caps = pg.caps ∧
      ((Pays caller pg c ∧ paid? (c, ((serviceOver caller).handle pg c).1) = some c) ∨
        (¬ Pays caller pg c ∧ paid? (c, ((serviceOver caller).handle pg c).1) = none)) := by
  by_cases hcap : c.req.amountMsat > pg.caps.perSpendMsat
  · have h := requestSpend_overCap caller hcap c.approval c.now c.auditNow
    refine ⟨by simp only [serviceOver, h], .inr ⟨?_, by simp only [serviceOver, h, paid?]⟩⟩
    exact fun hpays => UInt64.not_lt.mpr hpays.1 hcap
  · have hle := UInt64.not_lt.mp hcap
    rcases hanswer : caller.submitAndDecide pg.gate c.req.action c.approval c.now c.auditNow with
      ⟨result, gate⟩
    simp only [serviceOver, requestSpend, if_neg hcap, Pays, hle, hanswer, true_and]
    cases result with
    | error e => simp [Except.mapError, paid?]
    | ok d => cases d <;> simp [Except.mapError, paid?]

theorem after_caps (pg : PaymentGate G) (calls : List SpendCall) :
    ((serviceOver caller).after pg calls).caps = pg.caps :=
  (serviceOver caller).history (P := fun _ pg' => pg'.caps = pg.caps) rfl
    (fun _ pg' c h => (serviceOver_handle pg' c).1.trans h) calls

/-- One more call adds to what the run has paid for, when it pays. -/
theorem paid_exchanges_snoc (pg : PaymentGate G) (calls : List SpendCall) (c : SpendCall) :
    let S := serviceOver caller
    (Pays caller (S.after pg calls) c ∧
        paid (S.exchanges pg (calls ++ [c])) = paid (S.exchanges pg calls) ++ [c]) ∨
      (¬ Pays caller (S.after pg calls) c ∧
        paid (S.exchanges pg (calls ++ [c])) = paid (S.exchanges pg calls)) := by
  intro S
  simp only [paid, Service.exchanges_snoc, filterMap_snoc]
  rcases (serviceOver_handle (S.after pg calls) c).2 with ⟨hpays, hpaid⟩ | ⟨hpays, hpaid⟩
  · exact .inl ⟨hpays, by rw [hpaid, Option.toList_some]⟩
  · exact .inr ⟨hpays, by rw [hpaid, Option.toList_none, List.append_nil]⟩

/-- What the caps promise of a run: every spend paid for is within the cap for one spend, and together
they come to no more than the daily cap. -/
def WithinCaps (caller : GateCaller G) (pg : PaymentGate G) (calls : List SpendCall) : Prop :=
  let spends := paid ((serviceOver caller).exchanges pg calls)
  (∀ c ∈ spends, c.req.amountMsat ≤ pg.caps.perSpendMsat) ∧ spent spends ≤ pg.caps.dailyMsat.toNat

instance (caller : GateCaller G) (pg : PaymentGate G) (calls : List SpendCall) :
    Decidable (WithinCaps caller pg calls) := inferInstanceAs (Decidable (_ ∧ _))

/-- Every spend paid for is within the cap for one spend. -/
theorem paid_capped (pg : PaymentGate G) (calls : List SpendCall) :
    ∀ c ∈ paid ((serviceOver caller).exchanges pg calls), c.req.amountMsat ≤ pg.caps.perSpendMsat := by
  induction calls using List.reverseRecOn with
  | nil => nofun
  | append_singleton calls c ih =>
    rcases @paid_exchanges_snoc G caller pg calls c with ⟨hpays, hpaid⟩ | ⟨-, hpaid⟩
    · rw [hpaid, List.forall_mem_append, List.forall_mem_singleton]
      exact ⟨ih, after_caps pg calls ▸ hpays.1⟩
    · rw [hpaid]
      exact ih

/-- What is paid for was asked for. -/
theorem spent_paid_le (pg : PaymentGate G) (calls : List SpendCall) :
    spent (paid ((serviceOver caller).exchanges pg calls)) ≤ spent calls := by
  induction calls using List.reverseRecOn with
  | nil => exact Nat.le_refl _
  | append_singleton calls c ih =>
    rw [spent_append]
    rcases @paid_exchanges_snoc G caller pg calls c with ⟨-, hpaid⟩ | ⟨-, hpaid⟩
    · rw [hpaid, spent_append]
      exact Nat.add_le_add_right ih _
    · rw [hpaid]
      exact Nat.le_trans ih (Nat.le_add_right _ _)

end Daily

section Core

variable (cr : Crypto)

/-- The call is in order as the run finds the gate: its amount is within the cap for one spend, and its
approval comes from a key on the allowlist, has not expired, has a nonce that is not burned, and signs the
spend's action. -/
def InOrder (pg : PaymentGate Rule9Gate) (c : SpendCall) : Prop :=
  c.req.amountMsat ≤ pg.caps.perSpendMsat ∧
    c.approval.pubkey ∈ pg.gate.allowlistedSigners ∧ c.now ≤ c.approval.expiresAtUnix ∧
    c.approval.nonce ∉ pg.gate.usedNonces ∧ cr.isKey c.approval.pubkey = true ∧
    c.approval.SignedFor cr (c.req.action.hash cr)

instance (pg : PaymentGate Rule9Gate) (c : SpendCall) : Decidable (InOrder cr pg c) :=
  inferInstanceAs (Decidable (_ ∧ _))

/-- The calls whose nonce no call before them has. -/
def firstUses (calls : List SpendCall) : List SpendCall :=
  calls.foldl (fun uses c =>
    if c.approval.nonce ∈ uses.map (·.approval.nonce) then uses else uses ++ [c]) []

theorem firstUses_snoc (calls : List SpendCall) (c : SpendCall) :
    firstUses (calls ++ [c]) =
      if c.approval.nonce ∈ (firstUses calls).map (·.approval.nonce) then firstUses calls
      else firstUses calls ++ [c] := by
  rw [firstUses, List.foldl_append]
  rfl

/-- The core gate pays for what is in order before the call. -/
theorem pays_iff (pg : PaymentGate Rule9Gate) (c : SpendCall) :
    Pays (Rule9Gate.gateCaller cr) pg c ↔ InOrder cr pg c := by
  rcases Rule9Gate.submitAndDecide_cases cr pg.gate c.req.action c.approval c.now c.auditNow with
    ⟨e, hd⟩ | ⟨accepts, hd⟩
  · refine iff_of_false ?_ ?_
    · rintro ⟨-, h⟩
      simp only [Rule9Gate.gateCaller, hd, reduceCtorEq] at h
    · rintro ⟨-, hlisted, hunexpired, hfresh, hkey, hsigned⟩
      have accepts : (pg.gate.submit cr c.req.action).2.Accepts cr
          (pg.gate.submit cr c.req.action).1.hash c.approval c.now :=
        ⟨Finset.mem_insert_self _ _, hlisted, hunexpired, hfresh, hkey, hsigned⟩
      have hd' : pg.gate.submitAndDecide cr c.req.action c.approval c.now c.auditNow = _ :=
        Rule9Gate.decide_of_accepts cr accepts
      cases hd.symm.trans hd'
  · constructor
    · rintro ⟨hcap, -⟩
      exact ⟨hcap, accepts.allowlisted, accepts.unexpired, accepts.freshNonce, accepts.isKey,
        accepts.signed⟩
    · intro h
      exact ⟨h.1, by simp only [Rule9Gate.gateCaller, hd]⟩

/-- What a run leaves of the gate: the allowlist, and the nonces burned before it and by it. -/
structure Burned (pg : PaymentGate Rule9Gate) (spends : List SpendCall)
    (pg' : PaymentGate Rule9Gate) : Prop where
  caps : pg'.caps = pg.caps
  signers : pg'.gate.allowlistedSigners = pg.gate.allowlistedSigners
  nonces : ∀ nonce, nonce ∈ pg'.gate.usedNonces ↔
    nonce ∈ pg.gate.usedNonces ∨ nonce ∈ spends.map (·.approval.nonce)

/-- A call burns its nonce when it is paid for, and nothing otherwise. -/
theorem Burned.handle {pg pg' : PaymentGate Rule9Gate} {spends : List SpendCall}
    (h : Burned pg spends pg') (c : SpendCall) :
    Burned pg (spends ++ (paid? (c, ((serviceOver (Rule9Gate.gateCaller cr)).handle pg' c).1)).toList)
      ((serviceOver (Rule9Gate.gateCaller cr)).handle pg' c).2 := by
  by_cases hcap : c.req.amountMsat > pg'.caps.perSpendMsat
  · have hover := requestSpend_overCap (Rule9Gate.gateCaller cr) hcap c.approval c.now c.auditNow
    simpa only [serviceOver, hover, paid?, Option.toList_none, List.append_nil] using h
  · rcases Rule9Gate.submitAndDecide_cases cr pg'.gate c.req.action c.approval c.now c.auditNow with
      ⟨e, hd⟩ | ⟨-, hd⟩
    · simp only [serviceOver, requestSpend, if_neg hcap, Rule9Gate.gateCaller, hd, Except.mapError,
        paid?, Option.toList_none, List.append_nil]
      exact ⟨h.caps, h.signers, h.nonces⟩
    · simp only [serviceOver, requestSpend, if_neg hcap, Rule9Gate.gateCaller, hd, Except.mapError,
        paid?, Option.toList_some]
      refine ⟨h.caps, h.signers, ?_⟩
      intro nonce
      rw [Rule9Gate.approve_usedNonces, Rule9Gate.submit_usedNonces, Finset.mem_insert, h.nonces,
        List.map_append, List.mem_append, List.map_singleton, List.mem_singleton]
      tauto

theorem burned_run (pg : PaymentGate Rule9Gate) (calls : List SpendCall) :
    let S := serviceOver (Rule9Gate.gateCaller cr)
    Burned pg (paid (S.exchanges pg calls)) (S.after pg calls) :=
  (serviceOver (Rule9Gate.gateCaller cr)).history (P := fun log pg' => Burned pg (paid log) pg')
    ⟨rfl, rfl, fun _ => (or_iff_left (List.not_mem_nil)).symm⟩
    (fun log pg' c h => by
      rw [paid, filterMap_snoc]
      exact h.handle cr c) calls

/-- **What a run over the core gate pays for**: of the calls that are in order as the run finds the gate,
the first of each nonce. -/
theorem paid_eq_firstUses (pg : PaymentGate Rule9Gate) (calls : List SpendCall) :
    paid ((serviceOver (Rule9Gate.gateCaller cr)).exchanges pg calls) =
      firstUses (calls.filter (InOrder cr pg)) := by
  induction calls using List.reverseRecOn with
  | nil => rfl
  | append_singleton calls c ih =>
    have hburned := burned_run cr pg calls
    -- the call is in order now when it was so at first and its nonce was not burned since
    have hpays : Pays (Rule9Gate.gateCaller cr)
          ((serviceOver (Rule9Gate.gateCaller cr)).after pg calls) c ↔
        InOrder cr pg c ∧
          c.approval.nonce ∉ (firstUses (calls.filter (InOrder cr pg))).map (·.approval.nonce) := by
      rw [pays_iff, InOrder, InOrder, hburned.caps, hburned.signers, hburned.nonces, ih]
      tauto
    rw [List.filter_append]
    rcases @paid_exchanges_snoc Rule9Gate (Rule9Gate.gateCaller cr) pg calls c with
      ⟨hc, hpaid⟩ | ⟨hc, hpaid⟩
    · obtain ⟨hin, hnew⟩ := hpays.mp hc
      rw [hpaid, ih, List.filter_singleton, decide_eq_true hin, cond_true, firstUses_snoc, if_neg hnew]
    · rw [hpaid, ih]
      by_cases hin : InOrder cr pg c
      · have hold := not_not.mp fun hnew => hc (hpays.mpr ⟨hin, hnew⟩)
        rw [List.filter_singleton, decide_eq_true hin, cond_true, firstUses_snoc, if_pos hold]
      · rw [List.filter_singleton, decide_eq_false hin, cond_false, List.append_nil]

end Core

/-- **When the caps hold over a run.** Over the core gate: exactly when the calls that are in order as the
run finds the gate ask, each nonce counted at its first such call, for no more than the daily cap. Over any
other gate in its place it is enough that all calls together ask for no more. -/
theorem run_within_daily_iff (cr : Crypto) (pg : PaymentGate Rule9Gate) (calls : List SpendCall) :
    (WithinCaps (Rule9Gate.gateCaller cr) pg calls ↔
      spent (firstUses (calls.filter (InOrder cr pg))) ≤ pg.caps.dailyMsat.toNat) ∧
    ∀ (G : Type) (caller : GateCaller G) (gate : G),
      spent calls ≤ pg.caps.dailyMsat.toNat → WithinCaps caller ⟨pg.caps, gate⟩ calls := by
  constructor
  · rw [WithinCaps, paid_eq_firstUses]
    refine and_iff_right ?_
    rw [← paid_eq_firstUses]
    exact paid_capped pg calls
  · intro G caller gate h
    have hle : spent (paid ((serviceOver caller).exchanges ⟨pg.caps, gate⟩ calls)) ≤ spent calls :=
      spent_paid_le ⟨pg.caps, gate⟩ calls
    exact ⟨paid_capped ⟨pg.caps, gate⟩ calls, Nat.le_trans hle h⟩

/-- Keys that sign everything. -/
def trustingCrypto : Crypto where
  sha256 _ := .fill 32 0
  isKey _ := true
  verify _ _ _ := true

/-- Two approved spends, each as large as the daily cap. -/
def twoSpends : List SpendCall :=
  [⟨⟨10, .lightning, "alice", "tea"⟩, ⟨.fill 32 7, .fill 32 1, 100, .fill 64 0⟩, 60, 60⟩,
    ⟨⟨10, .zap, "bob", "gin"⟩, ⟨.fill 32 7, .fill 32 2, 100, .fill 64 0⟩, 61, 61⟩]

/-- Within a daily cap of twenty both are paid for; over a gate that approves everything, too. -/
theorem run_within_daily_iff_sample :
    let pg : PaymentGate Rule9Gate := ⟨⟨10, 20⟩, Rule9Gate.new [.fill 32 7]⟩
    let yes : GateCaller Unit := ⟨fun g _ _ _ _ => (.ok .approved, g)⟩
    WithinCaps (Rule9Gate.gateCaller trustingCrypto) pg twoSpends ∧
      WithinCaps yes ⟨pg.caps, ()⟩ twoSpends :=
  ⟨(run_within_daily_iff trustingCrypto _ twoSpends).1.mpr (by decide),
    (run_within_daily_iff trustingCrypto _ twoSpends).2 Unit _ () (by decide)⟩

/-- Both are paid for when the daily cap is ten. -/
theorem daily_cap_paid_twice :
    let pg : PaymentGate Rule9Gate := ⟨⟨10, 10⟩, Rule9Gate.new [.fill 32 7]⟩
    ¬ WithinCaps (Rule9Gate.gateCaller trustingCrypto) pg twoSpends := by
  decide

end PaymentGate

end GooseClaw
