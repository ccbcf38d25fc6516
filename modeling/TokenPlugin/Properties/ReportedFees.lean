import TokenPlugin.Reference

/-! # The fees that are reported and charged

GET_FEES returns the last values of all aliases. GET_FEE returns the value of an alias that was set,
unless the alias is longer than GET_FEE admits, or is `fees`, whose key is the key of the map of all
fees. -/

namespace TokenPlugin.Properties.ReportedFees

open Python Token.Types Token.Replies Messages.Fields Fees.ConfigState Fees.ConfigHistory
open Fees.FeesAuthorizer Lib.LastWrite Lib.Program Reference
open Token.GetUtxoHandler (ofPyInt setItem update)

variable {C : ConfigPlatform} {state : C.state.Carrier} {H : List FeesDict} {a : Str}

/-- A GET_FEES. -/
def getFeesOperation : List (Str × Json) := [("type", .str getFees)]

/-- The number that a reply reports; no value counts as 0. -/
def reportedAmount (reply : List (Str × Json)) : Option ℤ :=
  match Json.field reply "fee" with
  | some .null => some 0
  | some v => (Json.asInt v).map PyInt.val
  | none => none

/-- GET_FEES returns the last value of every alias. -/
def ReportsAll (state : C.state.Carrier) (H : List FeesDict) : Prop :=
  ∀ identifier reqId, ∃ reply l,
    getFeesResult state ⟨identifier, reqId, getFeesOperation⟩ = .ok reply ∧
    Json.field reply "fees" = some (.obj l) ∧ (l.map Prod.fst).Nodup ∧
    ∀ a, Json.field l a = (lastOf a H).map ofPyInt

/-- What is reported for an alias is what was set, and what is charged. -/
structure Reported (state : C.state.Carrier) (H : List FeesDict) (a : Str) : Prop where
  set : ∀ v, lastOf a H = some v → getFeeStaticValidation C (getFeeOperation a) = .ok () ∧
    ∀ identifier reqId, ∃ reply, getFeeResult state ⟨identifier, reqId, getFeeOperation a⟩ = .ok reply ∧
      Json.field reply "fee" = some (ofPyInt v)
  unset : lastOf a H = none → getFeeStaticValidation C (getFeeOperation a) = .ok () →
    ∀ identifier reqId, ∃ reply, getFeeResult state ⟨identifier, reqId, getFeeOperation a⟩ = .ok reply ∧
      Json.field reply "fee" = some .null
  charged : getFeeStaticValidation C (getFeeOperation a) = .ok () →
    ∀ identifier reqId c, getFeesAliasFromConstraint c = some a → ∃ reply fees,
      getFeeResult state ⟨identifier, reqId, getFeeOperation a⟩ = .ok reply ∧
      getFeesFromState state = .ok fees ∧ reportedAmount reply = some (feesAmount fees c : ℤ)

/-! ### Replies -/

theorem field_replyWith {r : ReadRequest} {key : Str} {value : Json} {proof : Option Json}
    (hop : key ∉ r.operation.map Prod.fst)
    (hkey : key ∉ [("identifier" : Str), ("reqId" : Str), ("state_proof" : Str)]) :
    Json.field (replyWith r key value proof) key = some value := by
  simp only [List.mem_cons, List.not_mem_nil, or_false, not_or] at hkey
  obtain ⟨hid, hreq, hproof⟩ := hkey
  have hbase : Json.field [(("identifier" : Str), .str r.identifier), ("reqId", .int r.reqId),
      (key, value)] key = some value := by
    unfold Json.field
    rw [List.lookup_cons, show (key == ("identifier" : Str)) = false by simpa using hid,
      List.lookup_cons, show (key == ("reqId" : Str)) = false by simpa using hreq]
    simp
  unfold replyWith
  rw [field_update hop]
  cases proof with
  | none => exact hbase
  | some p => rw [field_setItem, if_neg hproof]; exact hbase

/-- What GET_FEE replies, by what it reads. -/
theorem exists_getFeeResult {fee : Option StateValue}
    (h : readKey (C.state.committedHeadHash state) (buildPathForSetFees (some a)) = .ok fee)
    (identifier : Str) (reqId : ℤ) :
    ∃ reply, getFeeResult state ⟨identifier, reqId, getFeeOperation a⟩ = .ok reply ∧
      Json.field reply "fee" = some ((fee.map StateValue.toJson).getD .null) := by
  refine ⟨replyWith ⟨identifier, reqId, getFeeOperation a⟩ "fee"
    ((fee.map StateValue.toJson).getD .null) (proofOf state (some a) true), ?_,
    field_replyWith (by decide : ("fee" : Str) ∉ [("type" : Str), ("alias" : Str)]) (by decide)⟩
  have halias : (Json.field (getFeeOperation a) "alias").bind asStr = some a := rfl
  have hread : getFeeFromState state (some a) true = .ok fee := h
  unfold getFeeResult
  simp only [halias, hread]
  rfl

theorem field_entriesOf (fees : FeesDict) (a : Str) :
    Json.field (entriesOf fees) a = (fees.lookup a).map ofPyInt := by
  unfold Json.field entriesOf AList.lookup
  generalize fees.entries = l
  induction l with
  | nil => rfl
  | cons e l ih =>
    by_cases h : a = e.1
    · obtain ⟨k, x⟩ := e
      obtain rfl : a = k := h
      simp
    · rw [List.map_cons, List.lookup_cons, show (a == e.1) = false by simpa using h, ih,
        List.dlookup_cons_ne _ _ h]

theorem reportsAll_of_holds (h : HoldsFees (C.state.committedHeadHash state) H) : ReportsAll state H := by
  intro identifier reqId
  have hkeys : ∀ fees : FeesDict, ((entriesOf fees).map Prod.fst).Nodup := fun fees => by
    rw [entriesOf, List.map_map]
    exact fees.keys_nodup
  obtain ⟨fees, hfees, hlast⟩ : ∃ fees, getFeesValue state true = .ok (.all fees) ∧
      ∀ a, fees.lookup a = lastOf a H := by
    by_cases hH : H = []
    · subst hH
      have hread : getFeeFromState state none true = .ok none := h.nil rfl
      exact ⟨∅, by rw [getFeesValue, hread]; rfl, fun a => by simp [lastOf]⟩
    · obtain ⟨fees, hr, hl⟩ := h.all hH
      have hread : getFeeFromState state none true = .ok (some (.all fees)) := hr
      exact ⟨fees, by rw [getFeesValue, hread]; rfl, hl⟩
  refine ⟨replyWith ⟨identifier, reqId, getFeesOperation⟩ "fees" (StateValue.all fees).toJson
    (proofOf state none true), entriesOf fees, ?_,
    field_replyWith (by decide : ("fees" : Str) ∉ [("type" : Str)]) (by decide), hkeys fees,
    fun a => by rw [field_entriesOf, hlast]⟩
  unfold getFeesResult
  rw [hfees]
  rfl

/-- What is reported is what was set wherever the key of the alias is its own. -/
theorem reported_of_holds (hc : HoldsFees (C.state.committedHeadHash state) H)
    (hu : HoldsFees (C.state.headHash state) H) (hpos : ∀ v, lastOf a H = some v → a ≠ [] ∧ 0 ≤ v.val)
    (hown : a ≠ feesKeyForAll ∨ H = []) (hlen : (lastOf a H).isSome → a.length ≤ feeAliasLength) :
    Reported state H a := by
  have hread : a ≠ [] → readKey (C.state.committedHeadHash state) (buildPathForSetFees (some a)) =
      .ok ((lastOf a H).map .amount) := by
    intro ha
    rcases hown with hne | rfl
    · exact hc.one a ha hne
    · by_cases hne : a = feesKeyForAll
      · rw [(buildPath_eq_keyForAll ha).mpr hne, hc.nil rfl]
        rfl
      · exact hc.one a ha hne
  constructor
  · intro v hv
    have ha := (hpos v hv).1
    refine ⟨getFeeStaticValidation_eq_ok.mpr ⟨ha, hlen (by rw [hv]; rfl)⟩, fun identifier reqId => ?_⟩
    obtain ⟨reply, hreply, hfee⟩ := exists_getFeeResult (hread ha) identifier reqId
    exact ⟨reply, hreply, by rw [hfee, hv]; rfl⟩
  · intro hnone hst identifier reqId
    have ha := (getFeeStaticValidation_eq_ok.mp hst).1
    obtain ⟨reply, hreply, hfee⟩ := exists_getFeeResult (hread ha) identifier reqId
    exact ⟨reply, hreply, by rw [hfee, hnone]; rfl⟩
  · intro hst identifier reqId c hcon
    have ha := (getFeeStaticValidation_eq_ok.mp hst).1
    obtain ⟨reply, hreply, hfee⟩ := exists_getFeeResult (hread ha) identifier reqId
    obtain ⟨fees, hfees, hlook⟩ := hu.getFeesFromState
    refine ⟨reply, fees, hreply, hfees, ?_⟩
    have hamount : feesAmount fees c = ((lastOf a H).map (·.val.toNat)).getD 0 := by
      rw [feesAmount, hcon, Option.bind_some, hlook]
    unfold reportedAmount
    rw [hfee, hamount]
    rcases hv : lastOf a H with _ | v
    · rfl
    · have hv0 := (hpos v hv).2
      rcases v with z | (_ | _)
      · have hz : 0 ≤ z := hv0
        show some z = some ((z.toNat : ℕ) : ℤ)
        rw [Int.toNat_of_nonneg hz]
      · rfl
      · rfl

/-! ### Histories of SET_FEES -/

/-- **Which fees are reported and charged as they were set.** After any accepted SET_FEES operations,
applied and committed, GET_FEES returns all aliases with their last values; an alias is reported by
GET_FEE, and charged, as it was set, exactly when it is not `fees` (or nothing was set at all), and is
no longer than GET_FEE admits if it was set. -/
theorem reported_iff {ops : List (List (Str × Json))}
    (hops : ∀ op ∈ ops, setFeesStaticValidation C op = .ok ()) :
    ∃ H s, ops.mapM readSetFees = some H ∧ Returns (H.forM updateState) C.state.new () s ∧
      ReportsAll (C.state.commit s (C.state.headHash s)) H ∧
      ∀ a, Reported (C.state.commit s (C.state.headHash s)) H a ↔
        (a ≠ feesKeyForAll ∨ H = []) ∧ ((lastOf a H).isSome → a.length ≤ feeAliasLength) := by
  obtain ⟨H, hH, hp⟩ := forall_read_iff.mp fun op hop => exists_readSetFees (hops op hop)
  obtain ⟨s, hs, hh⟩ := exists_updateStates H (holdsFees_new (C := C))
  rw [List.nil_append] at hh
  have hc : HoldsFees (C.state.committedHeadHash (C.state.commit s (C.state.headHash s))) H := by
    rwa [C.state.committed_commit]
  have hu : HoldsFees (C.state.headHash (C.state.commit s (C.state.headHash s))) H := by
    rwa [C.state.head_commit]
  have hpos : ∀ a v, lastOf a H = some v → a ≠ [] ∧ 0 ≤ v.val := by
    intro a v hv
    clear hs hh hc hu hH
    induction H with
    | nil => cases hv
    | cons e H ih =>
      rw [lastOf, Option.or_eq_some_iff] at hv
      rcases hv with hv | ⟨-, hv⟩
      · exact ih (fun f hf => hp f (List.mem_cons_of_mem _ hf)) hv
      · exact hp e List.mem_cons_self a v hv
  refine ⟨H, s, hH, hs, reportsAll_of_holds hc, fun a => ⟨fun h => ⟨?_, fun hsome => ?_⟩,
    fun h => reported_of_holds hc hu (hpos a) h.1 h.2⟩⟩
  · -- the alias of the map reads the map
    by_contra hcol
    push Not at hcol
    obtain ⟨rfl, hne⟩ := hcol
    obtain ⟨fees, hread, -⟩ := hc.all hne
    obtain ⟨reply, hreply, hfee⟩ := exists_getFeeResult (a := feesKeyForAll) hread [] 0
    rcases hv : lastOf feesKeyForAll H with _ | v
    · obtain ⟨reply', hreply', hfee'⟩ := h.unset hv
        (getFeeStaticValidation_eq_ok.mpr ⟨by decide, by decide⟩) [] 0
      obtain rfl := Except.ok.inj (hreply.symm.trans hreply')
      rw [hfee] at hfee'
      cases hfee'
    · obtain ⟨reply', hreply', hfee'⟩ := (h.set v hv).2 [] 0
      obtain rfl := Except.ok.inj (hreply.symm.trans hreply')
      rw [hfee] at hfee'
      cases v <;> cases hfee'
  · obtain ⟨v, hv⟩ := Option.isSome_iff_exists.mp hsome
    exact (getFeeStaticValidation_eq_ok.mp (h.set v hv).1).2

/-- A SET_FEES for one alias. -/
def setOne (key : Str) (amount : ℤ) : List (Str × Json) :=
  [("type", .str Token.Types.setFees), ("fees", .obj [(key, .int amount)])]

theorem reported_iff_nym : ∃ H s, [setOne "nym" 4].mapM readSetFees = some H ∧
    Returns (H.forM updateState) refConfig.state.new () s ∧
    ReportsAll (refConfig.state.commit s (refConfig.state.headHash s)) H ∧
    ∀ a, Reported (refConfig.state.commit s (refConfig.state.headHash s)) H a ↔
      (a ≠ feesKeyForAll ∨ H = []) ∧ ((lastOf a H).isSome → a.length ≤ feeAliasLength) :=
  reported_iff fun op hop => by
    obtain rfl := List.mem_singleton.mp hop
    decide +kernel

/-- The alias `fees` is set to 7, and GET_FEE for it returns the map of all fees. -/
theorem not_reported_fees : setFeesStaticValidation refConfig (setOne feesKeyForAll 7) = .ok () ∧
    ∃ e s, readSetFees (setOne feesKeyForAll 7) = some e ∧
      Returns (updateState e) refConfig.state.new () s ∧
      ¬Reported (refConfig.state.commit s (refConfig.state.headHash s)) [e] feesKeyForAll := by
  let e : FeesDict := [⟨feesKeyForAll, .int 7⟩].toAList
  let s : refConfig.state.Carrier := (updateState e refConfig.state.new).2
  have hret : (updateState e refConfig.state.new).1 = .ok () := by decide +kernel
  refine ⟨by decide +kernel, e, s, rfl, Prod.ext hret rfl, fun h => ?_⟩
  have hread : (getFeeResult (refConfig.state.commit s (refConfig.state.headHash s))
      ⟨[], 0, getFeeOperation feesKeyForAll⟩).map (Json.field · "fee") =
      .ok (some (.obj [(feesKeyForAll, .int 7)])) := by decide +kernel
  obtain ⟨reply, hreply, hfee⟩ := (h.set (.int 7) (by decide +kernel)).2 [] 0
  rw [hreply] at hread
  have := hfee.symm.trans (Except.ok.inj hread)
  cases this

end TokenPlugin.Properties.ReportedFees
