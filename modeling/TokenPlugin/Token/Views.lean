import TokenPlugin.Database
import TokenPlugin.Token.Handlers

/-! # What the stores say

A `View` is two plain maps, a token state and a cache. The programs of the token plugin do the same on
the stores of a node as on the view of them, whether they write into the uncommitted batches or
straight to the stores, so they can be reasoned about on views alone. -/

namespace TokenPlugin.Token.Views

open Python Token.Types Token.UtxoCache Token.TokenUtils Token.Handlers Database Lib.Program
open Lib.Program.Prog (raise get modify ofExcept catching zoom)

/-- A token state and a cache, as maps. -/
@[ext] structure View where
  state : Str → Option Str
  cache : Str → Option Str

instance : TokenStores View where
  cacheGet v k _ := v.cache k
  cacheSet v k t _ := { v with cache := Function.update v.cache k (some t) }
  stateSet v k t := { v with state := Function.update v.state k (some t) }
  stateRemove v k := { v with state := Function.update v.state k none }

/-- Nothing in either. -/
def View.empty : View := ⟨fun _ => none, fun _ => none⟩

/-! ### Related stores -/

section Related
variable {S T : Type} [TokenStores S] [TokenStores T]

/-- A relation that the four operations keep, in the modes given. -/
structure StoresRel (R : S → T → Prop) (c c' : Bool) : Prop where
  cacheGet : ∀ s t, R s t → ∀ k, TokenStores.cacheGet t k c' = TokenStores.cacheGet s k c
  cacheSet : ∀ s t, R s t → ∀ k x,
    R (TokenStores.cacheSet s k x c) (TokenStores.cacheSet t k x c')
  stateSet : ∀ s t, R s t → ∀ k x, R (TokenStores.stateSet s k x) (TokenStores.stateSet t k x)
  stateRemove : ∀ s t, R s t → ∀ k, R (TokenStores.stateRemove s k) (TokenStores.stateRemove t k)

variable {R : S → T → Prop} {c c' : Bool}

theorem sim_getAmounts (h : StoresRel R c c') (a : Str) (b : Bool) :
    Sim R (getAmounts a b c) (getAmounts a b c') := by
  intro s t hR
  refine ⟨?_, hR⟩
  show amountsOf a b (TokenStores.cacheGet t a c') = amountsOf a b (TokenStores.cacheGet s a c)
  rw [h.cacheGet s t hR]

theorem sim_addOutput (h : StoresRel R c c') (o : Output) :
    Sim R (addOutput o c) (addOutput o c') :=
  (sim_getAmounts h _ _).bind fun _ => (sim_ofExcept _).bind fun _ => (sim_ofExcept _).bind
    fun _ => sim_modify fun s t hR => h.cacheSet s t hR _ _

theorem sim_spendOutput (h : StoresRel R c c') (o : Output) :
    Sim R (spendOutput o c) (spendOutput o c') :=
  (sim_getAmounts h _ _).bind fun _ => (sim_ofExcept _).bind fun _ => (sim_ofExcept _).bind
    fun _ => sim_modify fun s t hR => h.cacheSet s t hR _ _

theorem sim_sumGroups (h : StoresRel R c c') (groups : List (Str × List PyInt)) (n : ℤ) :
    Sim R (sumGroups c groups n) (sumGroups c' groups n) := by
  induction groups generalizing n with
  | nil => exact sim_pure _
  | cons g groups ih =>
    exact (sim_getAmounts h _ _).bind fun _ => (sim_ofExcept _).bind fun _ => ih _

theorem sim_sumInputs (h : StoresRel R c c') (inputs : List Input) :
    Sim R (sumInputs inputs c) (sumInputs inputs c') := sim_sumGroups h _ _

theorem sim_spendInput (h : StoresRel R c c') (a : Str) (n : PyInt) (r : Bool) :
    Sim R (spendInput a n c r) (spendInput a n c' r) := by
  unfold spendInput
  cases r
  · exact (sim_modify fun s t hR => h.stateSet s t hR _ _).bind fun _ => sim_spendOutput h _
  · exact (sim_modify fun s t hR => h.stateRemove s t hR _).bind fun _ => sim_spendOutput h _

theorem sim_addNewOutput (h : StoresRel R c c') (o : Output) :
    Sim R (addNewOutput o c) (addNewOutput o c') :=
  (sim_modify fun s t hR => h.stateSet s t hR _ _).bind fun _ => sim_addOutput h _

theorem sim_spendInputs (h : StoresRel R c c') (ins : List Input) (r : Bool) :
    Sim R (spendInputs ins c r) (spendInputs ins c' r) :=
  sim_forM fun _ => sim_spendInput h _ _ _

theorem sim_addNewOutputs (h : StoresRel R c c') (outs : List OutputSpec) (n : ℕ) :
    Sim R (addNewOutputs outs n c) (addNewOutputs outs n c') :=
  sim_forM fun _ => sim_addNewOutput h _

omit [TokenStores S] [TokenStores T] in
theorem sim_whileUpdatingState {x : Py S Unit} {y : Py T Unit} (h : Sim R x y) :
    Sim R (whileUpdatingState x) (whileUpdatingState y) := by
  refine h.catching fun e => ?_
  by_cases he : e.cls.isUTXOError <;> simp only [he, if_true] <;> exact sim_raise _

/-- The update of a transaction keeps every such relation. -/
theorem sim_update (h : StoresRel R c c') (u : Updater) (txn : TokenTxn) :
    Sim R (update u txn c) (update u txn c') := by
  have hadd := sim_addNewOutputs h txn.outputs txn.seqNo
  have hboth := fun r => (sim_spendInputs h txn.inputs r).bind fun _ => hadd
  cases u with
  | mint => exact sim_whileUpdatingState hadd
  | xfer => exact sim_whileUpdatingState (hboth true)
  | xfer100 => exact sim_whileUpdatingState (hboth false)
  | fees => exact hboth true

end Related

/-! ### The views of a node's stores -/

section Stores
variable {P : Platform}

/-- What is read with the uncommitted batches on top. -/
def uncommitted (s : Stores P) : View :=
  ⟨P.state.lookup (P.state.headHash s.tokenState), (P.cache.contents s.utxoCache).read⟩

/-- What is read by a node that writes straight to the stores. -/
def direct (s : Stores P) : View :=
  ⟨P.state.lookup (P.state.headHash s.tokenState), (P.cache.contents s.utxoCache).store⟩

/-- What is committed. -/
def committed (s : Stores P) : View :=
  ⟨P.state.lookup (P.state.committedHeadHash s.tokenState), (P.cache.contents s.utxoCache).store⟩

/-- What a program that writes into the uncommitted batches leaves alone. -/
def committedPart (s : Stores P) : P.state.Root × (Str → Option Str) × List (P.state.Root × Lib.Staged.Writes Str Str) :=
  (P.state.committedHeadHash s.tokenState, (P.cache.contents s.utxoCache).store,
    (P.cache.contents s.utxoCache).batches)

/-- What a program that writes straight to the stores leaves alone. -/
def pendingPart (s : Stores P) : List (P.state.Root × Lib.Staged.Writes Str Str) × Lib.Staged.Writes Str Str :=
  ((P.cache.contents s.utxoCache).batches, (P.cache.contents s.utxoCache).ops)

theorem rel_uncommitted (s₀ : Stores P) (c : Bool) :
    StoresRel (fun s v => uncommitted s = v ∧ committedPart s = committedPart s₀) false c where
  cacheGet := by
    rintro s _ ⟨rfl, -⟩ k
    simp [TokenStores.cacheGet, uncommitted, Lib.Staged.Overlay.get]
  cacheSet := by
    rintro s _ ⟨rfl, h⟩ k x
    exact ⟨by simp [TokenStores.cacheSet, uncommitted],
      by simpa [TokenStores.cacheSet, committedPart] using h⟩
  stateSet := by
    rintro s _ ⟨rfl, h⟩ k x
    exact ⟨by simp [TokenStores.stateSet, uncommitted],
      by simpa [TokenStores.stateSet, committedPart] using h⟩
  stateRemove := by
    rintro s _ ⟨rfl, h⟩ k
    exact ⟨by simp [TokenStores.stateRemove, uncommitted],
      by simpa [TokenStores.stateRemove, committedPart] using h⟩

theorem rel_direct (s₀ : Stores P) (c : Bool) :
    StoresRel (fun s v => direct s = v ∧ pendingPart s = pendingPart s₀) true c where
  cacheGet := by
    rintro s _ ⟨rfl, -⟩ k
    simp [TokenStores.cacheGet, direct, Lib.Staged.Overlay.get]
  cacheSet := by
    rintro s _ ⟨rfl, h⟩ k x
    exact ⟨by simp [TokenStores.cacheSet, direct],
      by simpa [TokenStores.cacheSet, pendingPart] using h⟩
  stateSet := by
    rintro s _ ⟨rfl, h⟩ k x
    exact ⟨by simp [TokenStores.stateSet, direct],
      by simpa [TokenStores.stateSet, pendingPart] using h⟩
  stateRemove := by
    rintro s _ ⟨rfl, h⟩ k
    exact ⟨by simp [TokenStores.stateRemove, direct],
      by simpa [TokenStores.stateRemove, pendingPart] using h⟩

/-- What is read in either mode. -/
def seen (c : Bool) (s : Stores P) : View := if c then direct s else uncommitted s

theorem rel_seen (c c' : Bool) : StoresRel (fun (s : Stores P) v => seen c s = v) c c' := by
  cases c
  · exact ⟨fun s t h => (rel_uncommitted s c').cacheGet s t ⟨h, rfl⟩,
      fun s t h k x => ((rel_uncommitted s c').cacheSet s t ⟨h, rfl⟩ k x).1,
      fun s t h k x => ((rel_uncommitted s c').stateSet s t ⟨h, rfl⟩ k x).1,
      fun s t h k => ((rel_uncommitted s c').stateRemove s t ⟨h, rfl⟩ k).1⟩
  · exact ⟨fun s t h => (rel_direct s c').cacheGet s t ⟨h, rfl⟩,
      fun s t h k x => ((rel_direct s c').cacheSet s t ⟨h, rfl⟩ k x).1,
      fun s t h k x => ((rel_direct s c').stateSet s t ⟨h, rfl⟩ k x).1,
      fun s t h k => ((rel_direct s c').stateRemove s t ⟨h, rfl⟩ k).1⟩

/-- **An update into the uncommitted batches**, seen on the uncommitted view. -/
theorem returns_update_uncommitted {s s' : Stores P} {u : Updater} {txn : TokenTxn} (c : Bool)
    (h : Returns (update u txn false) s () s') :
    Returns (update u txn c) (uncommitted s) () (uncommitted s') ∧
      committedPart s' = committedPart s := by
  obtain ⟨v, hv, rfl, hc⟩ := (sim_update (rel_uncommitted s c) u txn).returns ⟨rfl, rfl⟩ h
  exact ⟨hv, hc⟩

/-- An update that is possible on the uncommitted view is possible on the stores. -/
theorem exists_update_uncommitted {s : Stores P} {v : View} {u : Updater} {txn : TokenTxn} {c : Bool}
    (h : Returns (update u txn c) (uncommitted s) () v) :
    ∃ s', Returns (update u txn false) s () s' ∧ uncommitted s' = v := by
  obtain ⟨s', hs', hv, -⟩ := (sim_update (rel_uncommitted s c) u txn).returns_of ⟨rfl, rfl⟩ h
  exact ⟨s', hs', hv⟩

/-- A sum over inputs, seen on the uncommitted view. -/
theorem returns_sumInputs_uncommitted {s s' : Stores P} {ins : List Input} {t : ℤ} (c : Bool)
    (h : Returns (sumInputs ins false) s t s') :
    Returns (sumInputs ins c) (uncommitted s) t (uncommitted s') := by
  obtain ⟨v, hv, rfl, -⟩ := (sim_sumInputs (rel_uncommitted s c) ins).returns ⟨rfl, rfl⟩ h
  exact hv

end Stores

end TokenPlugin.Token.Views
