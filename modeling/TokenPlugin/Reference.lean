import TokenPlugin.Runs
import TokenPlugin.Fees.ConfigRuns
import TokenPlugin.Lib.JsonText
import TokenPlugin.Token.Addresses
import TokenPlugin.Token.Replies

/-! # A platform to run on

A small platform on which runs can be evaluated: stores and ledgers are plain lists, the root of a
ledger is the ledger itself, and base58, addresses and signatures are tables of true values. -/

namespace TokenPlugin.Reference

open Python Token.Types Platform Database Node Steps Lib.Program Lib.Staged

/-! ### The components -/

theorem lookup_filter_ne (l : List (Str × Str)) (k : Str) :
    (fun j => List.lookup j (l.filter (·.1 ≠ k))) =
      Function.update (fun j => List.lookup j l) k none := by
  funext j
  induction l with
  | nil => by_cases h : j = k <;> simp [h]
  | cons e l ih =>
    by_cases he : e.1 = k
    · rw [List.filter_cons_of_neg (by simpa using he), ih]
      by_cases h : j = k
      · subst h; simp
      · rw [Function.update_of_ne h, Function.update_of_ne h, List.lookup_cons,
          show (j == e.1) = false by simpa [he] using h]
    · rw [List.filter_cons_of_pos (by simpa using he), List.lookup_cons, ih]
      by_cases h : j = k
      · subst h
        rw [show (j == e.1) = false by simpa using Ne.symm he]
        simp
      · rw [Function.update_of_ne h, Function.update_of_ne h, List.lookup_cons]

/-- A state is the list of its entries. -/
def pruningState : PruningState where
  Carrier := List (Str × Str) × List (Str × Str)
  Root := List (Str × Str)
  decRoot := inferInstance
  new := ([], [])
  headHash := Prod.fst
  committedHeadHash := Prod.snd
  lookup r k := List.lookup k r
  set s k v := ((k, v) :: s.1, s.2)
  remove s k := (s.1.filter (·.1 ≠ k), s.2)
  revertToHead s r := (r, s.2)
  commit s r := (s.1, r)
  lookup_new _ := rfl
  committed_new := rfl
  lookup_set s k v := by
    funext j
    by_cases h : j = k
    · subst h; simp
    · rw [Function.update_of_ne h, List.lookup_cons, show (j == k) = false by simpa using h]
  committed_set _ _ _ := rfl
  lookup_remove s k := lookup_filter_ne s.1 k
  committed_remove _ _ := rfl
  head_revert _ _ := rfl
  committed_revert _ _ := rfl
  head_commit _ _ := rfl
  committed_commit _ _ := rfl

def optimisticKVStore (Idr : Type) : OptimisticKVStore Idr where
  Carrier := Overlay Str Str Idr
  new := ⟨fun _ => none, [], []⟩
  contents := id
  get s k c := s.get c k
  set s k v c := s.set c k v
  createBatchFromCurrent s i := s.close i
  commitBatch s := s.commit
  rejectBatch s := s.reject
  firstBatchIdr s := s.firstIdr
  contents_new := rfl
  get_eq _ _ _ := rfl
  contents_set _ _ _ _ := rfl
  contents_create _ _ := rfl
  contents_commit _ := Option.map_id_apply
  contents_reject _ := Option.map_id_apply
  firstBatchIdr_eq _ := rfl

/-- The root of a ledger is the list of its transactions. -/
def ledger (T : Type) [DecidableEq T] : Ledger T where
  Carrier := Log T
  Hash := List T
  decHash := inferInstance
  new := ⟨[], []⟩
  contents := id
  treeRoot := id
  appendTxns l ts := l.append ts
  discardTxns l n := l.discard n
  commitTxns l n := (l.uncommitted.take n, l.commit n)
  rootHash l := l.committed
  uncommittedRootHash l := l.all
  uncommittedSize l := l.all.length
  treeRoot_injective := Function.injective_id
  contents_new := rfl
  contents_append _ _ := rfl
  contents_discard _ _ := rfl
  commit_fst _ _ := rfl
  contents_commit _ _ := rfl
  rootHash_eq _ := rfl
  uncommittedRootHash_eq _ := rfl
  uncommittedSize_eq _ := rfl

def ledgerUncommittedTracker (Root Hash : Type) : LedgerUncommittedTracker Root Hash where
  Carrier := Track Root Hash
  new r h n := ⟨⟨r, h, n⟩, []⟩
  contents := id
  applyBatch t r h n := t.apply ⟨r, h, n⟩
  commitBatch t := t.commit
  rejectBatch t := t.reject
  contents_new _ _ _ := rfl
  contents_apply _ _ _ _ := rfl
  commit_fst _ := rfl
  contents_commit _ := rfl
  reject_fst _ := rfl
  contents_reject _ := rfl

/-! ### Addresses and signatures -/

/-- An address: its text, the text of its verification key, and the key. -/
structure Key where
  address : Str
  verkey : Str
  bytes : List UInt8

def alice : Key where
  address := "DB3eBYTCr9NvNVZNp1GwV12iDfqftoGrDKqBedRZV4SgdeTbi"
  verkey := "2ru5PcgeQzxF7QZYwQgDkG2K13PRqyigVw99zMYg8eML"
  bytes := [27, 164, 7, 91, 119, 201, 227, 251, 62, 205, 225, 92, 218, 245, 34, 31, 60, 16, 55, 62,
    98, 63, 123, 14, 30, 247, 99, 102, 176, 175, 113, 55]

def bob : Key where
  address := "YissN67riFhQ8W6viqtJoCRHFkXtqxaxeL9UyvCoz8sXq5B5A"
  verkey := "5rArie7XKukPCaEwq5XGQJnM9Fc5aZE3M9HAPVfMU2xC"
  bytes := [72, 7, 90, 89, 126, 114, 26, 21, 110, 46, 7, 153, 222, 92, 192, 197, 50, 77, 198, 231,
    234, 241, 205, 212, 98, 80, 134, 142, 197, 50, 21, 221]

def keys : List Key := [alice, bob]

mutual

/-- The text of a value as it is signed: entries joined by bars, items by commas. -/
def serialize : Json → Str
  | .null => []
  | .bool b => (PyInt.bool b).str
  | .int z => Lib.Text.intText z
  | .float text => text
  | .str s => s
  | .list l => ("," : Str).intercalate (serializeAll l)
  | .obj l => ("|" : Str).intercalate (serializeFields l)

def serializeAll : List Json → List Str
  | [] => []
  | v :: l => serialize v :: serializeAll l

def serializeFields : List (Str × Json) → List Str
  | [] => []
  | (k, v) :: l => (k ++ ':' :: serialize v) :: serializeFields l

end

/-- The payload digest of the one request whose fee section is signed here. -/
def payloadDigest : Str := "c4d09bffaccfabd8723d4018e41f83dc4df6e408da722e364b4eb21b0724964a"

/-- A fee section that spends the first output of an address and asks for 30 back. -/
def signedMessage : Str :=
  ("address:" : Str) ++ alice.address ++ ("|seqNo:1,address:" : Str) ++ bob.address ++
    ("|amount:30," : Str) ++ payloadDigest

/-- The signature of the message by the first address. -/
def signature : Str :=
  "2VYewJuiXDojAxoiz5ovN2Fgrb1MVeRqHTdrG8qRofhu3gkBpUemPm8BACjwZ4i1CFfYUcb2SfanfydPxz9bSZpU"

def signatureBytes : List UInt8 :=
  [74, 162, 63, 73, 63, 245, 66, 75, 205, 103, 176, 119, 229, 48, 204, 223, 241, 11, 17, 174, 151,
    223, 57, 197, 8, 85, 157, 114, 66, 186, 132, 72, 74, 59, 183, 59, 45, 178, 111, 16, 150, 225, 113,
    233, 102, 118, 124, 90, 20, 243, 118, 250, 125, 143, 220, 209, 102, 226, 253, 100, 77, 23, 42, 9]

def nym : Str := "1"
def attrib : Str := "100"

/-- The text as bytes; every text that is signed here is ASCII. -/
def encode (s : Str) : List UInt8 := s.map fun c => c.toNat.toUInt8

/-- The platform. -/
def ref : Platform where
  state := pruningState
  cache := optimisticKVStore _
  ledger := ledger TokenTxn
  domainLedger := ledger DomainTxn
  tracker := ledgerUncommittedTracker _ _
  b58decode s := if s = signature then some signatureBytes else none
  b58encode b := ((keys.find? (·.bytes = b)).map Key.verkey).getD []
  b58decodeCheck a := (keys.find? (·.address = a)).map Key.bytes
  colon_notMem a b h := by
    obtain ⟨k, hk, -⟩ := Option.map_eq_some_iff.mp h
    have hcolon : ∀ k ∈ keys, ':' ∉ k.address := by decide
    obtain rfl : k.address = a := by simpa using List.find?_some hk
    exact hcolon k (List.mem_of_find?_eq_some hk)
  serializeMsgForSigning vs := encode (("," : Str).intercalate (serializeAll vs))
  verify vk sig msg := vk = alice.verkey ∧ sig = signatureBytes ∧ msg = encode signedMessage
  signatureFieldLimit := 512
  domainLedgerId := 1
  authRule := "120"
  authRules := "122"
  domainTypes := [nym, attrib]
  domainTypes_nodup := by decide
  types_disjoint := by decide
  rules_ne := by decide
  rules_disjoint := by decide

/-! ### Reading -/

/-- The keys that begin with a text, in order, each once. -/
def keysWith (r : List (Str × Str)) (address : Str) : List Str :=
  (((r.map Prod.fst).filter fun k => address.isPrefixOf k).dedup).insertionSort (· ≤ ·)

theorem mem_keysWith {r : List (Str × Str)} {address k : Str} :
    k ∈ keysWith r address ↔ k ∈ r.map Prod.fst ∧ address <+: k := by
  rw [keysWith, List.mem_insertionSort, List.mem_dedup, List.mem_filter, List.isPrefixOf_iff_prefix]

theorem keysWith_sorted (r : List (Str × Str)) (address : Str) :
    (keysWith r address).Pairwise (· < ·) := by
  have hle : (keysWith r address).Pairwise (· ≤ ·) := List.pairwise_insertionSort _ _
  have hne : (keysWith r address).Nodup :=
    (List.perm_insertionSort _ _).nodup_iff.mpr (List.nodup_dedup _)
  exact (hle.and hne).imp fun ⟨h, h'⟩ => lt_of_le_of_ne h h'

theorem lookup_isSome_iff {r : List (Str × Str)} {k : Str} :
    (List.lookup k r).isSome ↔ k ∈ r.map Prod.fst := by
  induction r with
  | nil => simp
  | cons e r ih =>
    rw [List.lookup_cons, List.map_cons, List.mem_cons]
    by_cases h : k = e.1
    · simp [h]
    · rw [show (k == e.1) = false by simpa using h, ← ih]
      simp [h]

/-- A state is walked through key by key; a proof is the whole of it. -/
def prefixReads : Token.GetUtxoHandler.PrefixReads pruningState where
  entries r address := (keysWith r address).filterMap fun k => (List.lookup k r).map (k, ·)
  proofNodes r _ := .list (r.map fun e => .list [.str e.1, .str e.2])
  before := (· < ·)
  before_asymm _ _ h h' := lt_asymm h h'
  mem_entries r address k v := by
    show (k, v) ∈ (keysWith r address).filterMap _ ↔ address <+: k ∧ List.lookup k r = some v
    rw [List.mem_filterMap]
    constructor
    · rintro ⟨k', hk', hv⟩
      obtain ⟨v', hlook, he⟩ := Option.map_eq_some_iff.mp hv
      obtain ⟨rfl, rfl⟩ := Prod.mk.inj he
      exact ⟨(mem_keysWith.mp hk').2, hlook⟩
    · rintro ⟨hpre, hv⟩
      exact ⟨k, mem_keysWith.mpr ⟨lookup_isSome_iff.mp (by rw [hv]; rfl), hpre⟩, by rw [hv]; rfl⟩
  entries_sorted r address := by
    show ((keysWith r address).filterMap _).Pairwise _
    rw [List.pairwise_filterMap]
    refine (keysWith_sorted r address).imp fun h e he f hf => ?_
    obtain ⟨_, -, rfl⟩ := Option.map_eq_some_iff.mp he
    obtain ⟨_, -, rfl⟩ := Option.map_eq_some_iff.mp hf
    exact h
  proofNodes_injective _ r r' h := by
    have hr := Json.list.inj h
    refine List.map_injective_iff.mpr (fun e f he => ?_) hr
    obtain ⟨hk, hv⟩ : e.1 = f.1 ∧ e.2 = f.2 := by simpa using he
    exact Prod.ext hk hv

/-- A node that has a multi-signature for every root. -/
def readNode : Token.GetUtxoHandler.ReadNode ref where
  reads := prefixReads
  serializeRoot _ := "root"
  blsStore _ := some (.str "signed")
  dumps _ := []
  msgLimit := 1000

/-- A request for the outputs of an address. -/
def readRequest (address : Str) (start : Option PyInt) : Token.GetUtxoHandler.ReadRequest where
  identifier := address
  reqId := 1
  operation := Token.Replies.operation address start

/-! ### Base58 as a whole -/

/-- A key of zeros. -/
def zeroKey : List UInt8 := List.replicate 32 0

/-- Two keys; the address of the second begins with that of the first. -/
def shortKey : List UInt8 := 1 :: List.replicate 27 0 ++ [1, 12, 138, 65]

def longKey : List UInt8 := 58 :: List.replicate 27 0 ++ [60, 215, 82, 242]

/-- The checksum of these keys. -/
def checksum (payload : List UInt8) : List UInt8 :=
  if payload = zeroKey then [43, 50, 219, 108]
  else if payload = shortKey then [250, 61, 148, 232]
  else if payload = longKey then [177, 243, 188, 160]
  else [0, 0, 0, 0]

/-- The platform with the standard base58, of all texts and bytes. -/
def standard : Platform := { ref with
  b58decode := Lib.Base58.decode
  b58encode := Lib.Base58.encode
  b58decodeCheck := Lib.Base58.decodeCheck checksum
  colon_notMem := fun _ _ h hcolon =>
    absurd (Lib.Base58.mem_alphabet_of_decodeCheck h hcolon) (by decide) }

def base58 : Token.Addresses.Base58 standard where
  checksum := checksum
  b58encodeCheck := Lib.Base58.encodeCheck checksum
  length_checksum payload := by
    unfold checksum
    split_ifs <;> rfl
  b58encode_eq _ := rfl
  b58decode_eq _ _ := rfl
  b58encodeCheck_eq _ := rfl
  b58decodeCheck_eq _ _ := rfl

def standardReadNode : Token.GetUtxoHandler.ReadNode standard where
  reads := prefixReads
  serializeRoot _ := "root"
  blsStore _ := some (.str "signed")
  dumps _ := []
  msgLimit := 1000

/-! ### The config state -/

/-- The JSON text of a number or a boolean. -/
def amountText : PyInt → Str
  | .int z => Lib.Text.intText z
  | .bool true => "true"
  | .bool false => "false"

def readAmount (s : Str) : Option PyInt :=
  if s = ("true" : Str) then some (.bool true)
  else if s = ("false" : Str) then some (.bool false)
  else (Lib.Text.readInt s).map .int

theorem readAmount_amountText (v : PyInt) : readAmount (amountText v) = some v := by
  rcases v with z | (_ | _)
  · have hread := Lib.Text.readInt_intText z
    have htrue : Lib.Text.intText z ≠ ("true" : Str) := fun h => by
      rw [h, show Lib.Text.readInt ("true" : Str) = none by decide] at hread
      cases hread
    have hfalse : Lib.Text.intText z ≠ ("false" : Str) := fun h => by
      rw [h, show Lib.Text.readInt ("false" : Str) = none by decide] at hread
      cases hread
    rw [amountText, readAmount, if_neg htrue, if_neg hfalse, hread]
    rfl
  · decide
  · decide

theorem notMem_amountText {c : Char} (hd : c.isDigit = false) (hm : c ≠ '-')
    (hc : c ∉ ("truefals" : Str)) (v : PyInt) : c ∉ amountText v := by
  rcases v with z | (_ | _)
  · exact Lib.Text.notMem_intText hd hm
  · exact fun h => hc (List.Subset.trans (by decide : ("false" : Str) ⊆ ("truefals" : Str))
      (List.Subset.refl _) h)
  · exact fun h => hc (List.Subset.trans (by decide : ("true" : Str) ⊆ ("truefals" : Str))
      (List.Subset.refl _) h)

def pairsOf (l : List (Sigma fun _ : Str => PyInt)) : List (Str × PyInt) := l.map fun e => (e.1, e.2)

def ofPairs (l : List (Str × PyInt)) : List (Sigma fun _ : Str => PyInt) := l.map fun e => ⟨e.1, e.2⟩

theorem ofPairs_pairsOf (l : List (Sigma fun _ : Str => PyInt)) : ofPairs (pairsOf l) = l := by
  rw [ofPairs, pairsOf, List.map_map]
  exact List.map_id _

/-- JSON, with the keys of a map in the order of its entries. -/
def serializeFees : Fees.ConfigState.StateValue → Str
  | .amount v => amountText v
  | .all fees => Lib.JsonText.writeObject amountText (pairsOf fees.entries)

/-- A map without duplicate keys. -/
def mapOf (l : List (Str × PyInt)) : Except PyErr Fees.ConfigState.StateValue :=
  if h : (ofPairs l).keys.Nodup then .ok (.all ⟨_, h⟩) else .error ⟨.valueError, "duplicate key"⟩

def deserializeFees (s : Str) : Except PyErr Fees.ConfigState.StateValue :=
  let failed : PyErr := ⟨.valueError, "not JSON"⟩
  if s.head? = some '\x7b' then ((Lib.JsonText.readObject readAmount s).map mapOf).getD (.error failed)
  else ((readAmount s).map fun v => .ok (.amount v)).getD (.error failed)

theorem deserializeFees_amount (v : PyInt) :
    deserializeFees (serializeFees (.amount v)) = .ok (.amount v) := by
  have hbrace : '\x7b' ∉ amountText v := notMem_amountText (by decide) (by decide) (by decide) v
  show deserializeFees (amountText v) = _
  have hhead : (amountText v).head? ≠ some '\x7b' := fun h => hbrace (List.mem_of_mem_head? h)
  unfold deserializeFees
  simp only [hhead, if_false, readAmount_amountText]
  rfl

theorem deserializeFees_all (fees : Fees.ConfigState.FeesDict) :
    deserializeFees (serializeFees (.all fees)) = .ok (.all fees) := by
  have hends : ∀ v, ∀ c ∈ amountText v, Lib.JsonText.ends c = false := by
    intro v c hc
    by_contra h
    have hor : c = ',' ∨ c = '\x7d' := by
      by_contra hn
      exact h (decide_eq_false hn)
    rcases hor with rfl | rfl
    · exact notMem_amountText (by decide) (by decide) (by decide) v hc
    · exact notMem_amountText (by decide) (by decide) (by decide) v hc
  have hread := Lib.JsonText.readObject_writeObject readAmount_amountText hends
    (pairsOf fees.entries)
  have hmap : mapOf (pairsOf fees.entries) = .ok (.all fees) := by
    unfold mapOf
    simp only [ofPairs_pairsOf]
    exact dif_pos fees.keys_nodup
  show deserializeFees (Lib.JsonText.writeObject amountText (pairsOf fees.entries)) = _
  have hhead : (Lib.JsonText.writeObject amountText (pairsOf fees.entries)).head? = some '\x7b' := rfl
  unfold deserializeFees
  simp only [hhead, if_true, hread, Option.map_some, Option.getD_some, hmap]

/-- The config state of the platform, without proofs. -/
def refConfig : Fees.ConfigState.ConfigPlatform where
  state := pruningState
  serialize := serializeFees
  deserialize := deserializeFees
  stateProof _ _ := .null
  serializeRoot _ := "root"
  blsStore _ := none
  schemaIsStrict := true
  serialize_ne_nil v := by
    rcases v with (z | (_ | _)) | fees
    · exact Lib.Text.intText_ne_nil z
    · decide
    · decide
    · exact List.cons_ne_nil _ _
  deserialize_amount := deserializeFees_amount
  deserialize_all fees := ⟨fees, deserializeFees_all fees, List.Perm.refl _⟩

/-! ### Auth rules -/

/-- A text and the metadata of a role constraint. -/
def strText : Str → Str := Lib.Text.listText fun c => [c]

def metadataText : List (Str × Str) → Str := Lib.Text.listText fun e => strText e.1 ++ strText e.2

mutual

/-- A constraint. -/
def constraintText : Constraint → Str
  | .forbidden => ['f']
  | .role c => 'r' :: metadataText c.metadata
  | .group ds => 'g' :: constraintsText ds

/-- A list of constraints. -/
def constraintsText : List Constraint → Str
  | [] => [';']
  | d :: ds => ':' :: constraintText d ++ constraintsText ds

end

theorem selfDelimiting_strText : Lib.Text.SelfDelimiting strText :=
  Lib.Text.selfDelimiting_single.list

theorem selfDelimiting_metadataText : Lib.Text.SelfDelimiting metadataText :=
  (selfDelimiting_strText.pair selfDelimiting_strText).list

mutual

theorem constraintText_inj (c d : Constraint) (t u : Str)
    (h : constraintText c ++ t = constraintText d ++ u) : c = d ∧ t = u := by
  cases c with
  | forbidden =>
    cases d with
    | forbidden => simpa [constraintText] using h
    | role | group => simp [constraintText] at h
  | role c =>
    cases d with
    | role d =>
      simp only [constraintText, List.cons_append, List.cons.injEq, true_and] at h
      obtain ⟨hm, rfl⟩ := selfDelimiting_metadataText _ _ _ _ h
      cases c; cases d
      simp only at hm
      subst hm
      exact ⟨rfl, rfl⟩
    | forbidden | group => simp [constraintText] at h
  | group cs =>
    cases d with
    | group ds =>
      simp only [constraintText, List.cons_append, List.cons.injEq, true_and] at h
      obtain ⟨rfl, rfl⟩ := constraintsText_inj cs ds t u h
      exact ⟨rfl, rfl⟩
    | forbidden | role => simp [constraintText] at h

theorem constraintsText_inj (cs ds : List Constraint) (t u : Str)
    (h : constraintsText cs ++ t = constraintsText ds ++ u) : cs = ds ∧ t = u := by
  cases cs with
  | nil =>
    cases ds with
    | nil => simpa [constraintsText] using h
    | cons d ds => simp [constraintsText] at h
  | cons c cs =>
    cases ds with
    | nil => simp [constraintsText] at h
    | cons d ds =>
      simp only [constraintsText, List.cons_append, List.cons.injEq, true_and, List.append_assoc] at h
      obtain ⟨rfl, hrest⟩ := constraintText_inj c d _ _ h
      obtain ⟨rfl, rfl⟩ := constraintsText_inj cs ds _ _ hrest
      exact ⟨rfl, rfl⟩

end

/-- The auth rules of the platform, under keys that no fee is kept under. -/
def refRules : Fees.ConfigRuns.RulePlatform refConfig where
  path key := '1' :: ':' :: key
  serialize := constraintText
  path_ne key feesAlias h := by
    have := congrArg List.head? h
    simp [Fees.ConfigState.buildPathForSetFees, Fees.ConfigState.feesStatePrefix] at this
  serialize_injective := Lib.Text.SelfDelimiting.injective constraintText_inj

/-! ### Runs -/

section Run
variable {P : Platform}

/-- A step of a run, where it is possible. -/
def runStep (s : Node P × Trace P) (a : Action) : Option (Node P × Trace P) :=
  if Enabled s.1 a then
    match step a s.1 with
    | (.ok (), n') => some (n', s.2.next s.1 n' a)
    | (.error _, _) => none
  else none

/-- A run from empty databases. -/
def run (P : Platform) (actions : List Action) : Option (Node P × Trace P) :=
  actions.foldlM runStep (.new, .new)

theorem reach_run {ok : Action → Prop} {actions : List Action} {s : Node P × Trace P}
    (h : run P actions = some s) (hok : ∀ a ∈ actions, ok a) : Reach ok s.1 s.2 := by
  have key : ∀ (actions : List Action) (s₀ : Node P × Trace P), Reach ok s₀.1 s₀.2 →
      actions.foldlM runStep s₀ = some s → (∀ a ∈ actions, ok a) → Reach ok s.1 s.2 := by
    intro actions
    induction actions with
    | nil =>
      intro s₀ hr h _
      obtain rfl : s₀ = s := by simpa using h
      exact hr
    | cons a actions ih =>
      intro s₀ hr h hok
      rw [List.foldlM_cons] at h
      obtain ⟨s₁, hs, h⟩ := Option.bind_eq_some_iff.mp h
      refine ih s₁ ?_ h fun b hb => hok b (List.mem_cons_of_mem _ hb)
      unfold runStep at hs
      split_ifs at hs with he
      split at hs
      · next n' hn =>
        obtain rfl := Option.some.inj hs
        exact .step hr (hok a List.mem_cons_self) he hn
      · cases hs
  exact key actions _ .new h hok

end Run

/-! ### Requests -/

/-- A request of the first address for an operation, with the fee section given. -/
def request (op : Operation) (fees : Option FeesSection) : Request where
  identifier := alice.verkey
  reqId := 1
  operation := op
  fees := fees
  sigs := []
  payloadDigest := payloadDigest

/-- A leaf of an auth rule that names a fees alias. -/
def asks (key : Str) : AuthConstraint := ⟨[("fees", key)]⟩

/-- Tokens are minted for the first address. -/
def mint (amount : ℤ) : Action :=
  .apply (request (.mint [⟨alice.address, .int amount⟩]) none) .registered [] 0

/-- An output of one address is passed on to the other. -/
def pass (payer payee : Key) (seqNo amount : ℤ) : Action :=
  .apply (request (.xfer [⟨payer.address, .int seqNo⟩] [⟨payee.address, .int amount⟩] [.str signature])
    none) .registered [asks "xfer"] 0

/-- A fee section that spends an output of the first address. -/
def section_ (seqNo change : ℤ) : FeesSection :=
  ⟨[⟨alice.address, .int seqNo⟩], [⟨bob.address, .int change⟩], [.str signature]⟩

/-- A NYM with a fee section. -/
def nymWithFees (s : FeesSection) : Action := .apply (request (.domain nym) (some s)) .registered [asks "nym"] 0

/-- A NYM without one. -/
def nymWithoutFees : Action := .apply (request (.domain nym) none) .registered [] 0

/-- A run with all kinds of batches, one of them rejected and applied again. -/
def sample : List Action :=
  [.config [("nym", 10)], mint 100, .close .token, nymWithFees (section_ 1 90), .close .domain, .reject,
    nymWithFees (section_ 1 90), .close .domain, nymWithoutFees, .close .domain, .commit, .commit,
    .commit, pass bob alice 2 90, .close .token]

theorem sample_isSome : (run ref sample).isSome := by decide +kernel

/-- The node after the run. -/
def sampleNode : Node ref := ((run ref sample).get sample_isSome).1

/-- The record of the run. -/
def sampleTrace : Trace ref := ((run ref sample).get sample_isSome).2

theorem reach_sample (ok : Action → Prop) (h : ∀ a ∈ sample, ok a) : Reach ok sampleNode sampleTrace :=
  reach_run (Option.some_get sample_isSome).symm h

end TokenPlugin.Reference
