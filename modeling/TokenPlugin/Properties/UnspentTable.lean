import TokenPlugin.Reference

/-! # The cache as a table of unspent outputs

For each address the table has a list of numbers and amounts. Adding an output appends to the list, and
spending one deletes the first entry with its number. The texts of the cache represent this table through
any sequence of calls, and the reads of the cache are reads of the table. -/

namespace TokenPlugin.Properties.UnspentTable

open Python Token.Types Token.UtxoCache Token.Amounts Token.Pairs Token.Sums Database Lib.Text
open Lib.Program
open Lib.Program.Prog (raise get modify ofExcept)

/-! ### The table -/

/-- The numbers and amounts of each address, oldest first. -/
abbrev Table : Type := Str → List (ℤ × ℤ)

/-- No outputs. -/
def Table.empty : Table := fun _ => []

/-- A call of the cache. The amount of an output that is to be spent may be anything. -/
inductive Call
  | add (address : Str) (seqNo amount : ℤ)
  | spend (address : Str) (seqNo : ℤ) (amount : Option PyInt)

/-- What a call does to the table. -/
def Call.on : Call → Table → Table
  | add a n v, t => Function.update t a (t a ++ [(n, v)])
  | spend a n _, t => Function.update t a ((t a).eraseP (·.1 = n))

/-- The table after some calls, from the empty one. -/
def tableAfter (calls : List Call) : Table := calls.foldl (fun t call => call.on t) .empty

section AnyStores
variable {S : Type} [TokenStores S]

/-- The call. -/
def Call.program (c : Bool) : Call → Py S Unit
  | add a n v => addOutput ⟨a, .int n, some (.int v)⟩ c
  | spend a n v => spendOutput ⟨a, .int n, v⟩ c

/-- The stores after some calls; a call that raises leaves them as it does. -/
def storesAfter (c : Bool) (calls : List Call) (s : S) : S :=
  calls.foldl (fun s call => (call.program c s).2) s

/-- `UTXONotFound` and its subclass. -/
def NotFound (e : PyErr) : Prop := e.cls = .utxoNotFound ∨ e.cls = .utxoAddressNotFound

/-- An entry as it is written. -/
def entryText (p : ℤ × ℤ) : Str × Str := (intText p.1, intText p.2)

/-- The first amount of a number. -/
def amountFor (l : List (ℤ × ℤ)) (z : ℤ) : Option ℤ := (l.find? (·.1 = z)).map Prod.snd

/-- The cache answers from the table. -/
structure Implements (c : Bool) (s : S) (t : Table) : Prop where
  /-- The text of an address parses to its entries. -/
  parses : ∀ a data, TokenStores.cacheGet s a c = some data →
    UTXOAmounts.init a (some data) = .ok ⟨a, flat ((t a).map entryText)⟩
  /-- An address without a text has no entries. -/
  absent : ∀ a, TokenStores.cacheGet s a c = none → t a = []
  outputs : ∀ a, Returns (getUnspentOutputs a c) s
    ((t a).map fun p => ⟨a, .int p.1, some (.int p.2)⟩) s
  /-- A number that is not listed cannot be spent, and nothing is written. -/
  spend_missing : ∀ a n v, n ∉ (t a).map Prod.fst →
    ∃ e, spendOutput ⟨a, .int n, v⟩ c s = (.error e, s) ∧ NotFound e
  /-- Each pair asked for counts once, with its first amount. -/
  sum : ∀ inputs : List Input, (∀ i ∈ inputs, i.seqNo.val ∈ (t i.address).map Prod.fst) →
    Returns (sumInputs inputs c) s
      (∑ k ∈ (inputs.map fun i => (i.address, i.seqNo.val)).toFinset, (amountFor (t k.1) k.2).getD 0) s
  sum_missing : ∀ inputs : List Input,
    (∃ i ∈ inputs, i.seqNo.val ∉ (t i.address).map Prod.fst) →
    ∃ e, sumInputs inputs c s = (.error e, s) ∧ NotFound e

/-! ### Representation -/

/-- The texts that represent a table. -/
def Represents (m : Str → Option Str) (t : Table) : Prop :=
  ∀ a, (m a).getD [] = render ':' ((t a).map entryText)

variable {c : Bool} {s : S} {t : Table}

theorem clean_entryText (l : List (ℤ × ℤ)) : Clean ':' (l.map entryText) := by
  intro p hp
  obtain ⟨q, -, rfl⟩ := List.mem_map.mp hp
  exact ⟨notMem_intText (by decide) (by decide), notMem_intText (by decide) (by decide)⟩

theorem map_textPair (l : List (ℤ × ℤ)) :
    (l.map fun p => (p.1, PyInt.int p.2)).map textPair = l.map entryText := by
  rw [List.map_map]
  rfl

section Texts
variable {m : Str → Option Str} (h : Represents m t)

include h

theorem eq_render {a data : Str} (hm : m a = some data) : data = render ':' ((t a).map entryText) := by
  rw [← h a, hm]
  rfl

theorem eq_nil_of_none {a : Str} (hm : m a = none) : t a = [] := by
  have := h a
  rw [hm] at this
  simpa using render_eq_nil.mp this.symm

/-- What there is for an address lists its entries. -/
theorem pairsAt_eq (a : Str) : pairsAt m a = some ((t a).map entryText) := by
  rw [pairsAt, h a]
  exact pairs_render (clean_entryText _)

theorem init_of_represents (a : Str) :
    UTXOAmounts.init a (m a) = .ok ⟨a, flat ((t a).map entryText)⟩ := init_of_pairs (pairsAt_eq h a)

/-- Without leave to make a new list, an address may also be unknown. -/
theorem amountsOf_false (a : Str) : amountsOf a false (m a) = .ok ⟨a, flat ((t a).map entryText)⟩ ∨
    t a = [] ∧ ∃ e, amountsOf a false (m a) = .error e ∧ NotFound e := by
  cases hm : m a with
  | none => exact Or.inr ⟨eq_nil_of_none h hm, _, rfl, Or.inr rfl⟩
  | some data =>
    refine Or.inl ?_
    rw [← init_of_represents h a, hm]
    rfl

theorem represents_update {a : Str} {l : List (ℤ × ℤ)} {data : Str}
    (hd : data = render ':' (l.map entryText)) :
    Represents (Function.update m a (some data)) (Function.update t a l) := by
  intro b
  by_cases hb : b = a
  · subst hb
    simp [hd]
  · rw [Function.update_of_ne hb, Function.update_of_ne hb]
    exact h b

end Texts

/-! ### The calls -/

variable (h : Represents (TokenStores.cacheGet s · c) t)

theorem mem_map_fst_entryText {l : List (ℤ × ℤ)} {n : ℤ} :
    (PyInt.int n).str ∈ (l.map entryText).map Prod.fst ↔ n ∈ l.map Prod.fst := by
  rw [List.map_map, show Prod.fst ∘ entryText = intText ∘ Prod.fst from rfl, ← List.map_map,
    PyInt.str_int, List.mem_map_of_injective intText_injective]

theorem map_eraseP_entryText (l : List (ℤ × ℤ)) (n : ℤ) :
    (l.map entryText).eraseP (·.1 = intText n) = (l.eraseP (·.1 = n)).map entryText := by
  rw [List.eraseP_map]
  congr 2
  funext p
  simp [entryText, intText_injective.eq_iff]

include h

theorem addOutput_eq (a : Str) (n v : ℤ) : addOutput ⟨a, .int n, some (.int v)⟩ c s =
    (.ok (), TokenStores.cacheSet s a (render ':' ((t a ++ [(n, v)]).map entryText)) c) := by
  have htext : addedText a (.int n) (.int v) (TokenStores.cacheGet s a c) =
      .ok (render ':' ((t a ++ [(n, v)]).map entryText)) :=
    (addedText_eq_ok (m := (TokenStores.cacheGet s · c))).mpr
      ⟨_, pairsAt_eq h a, by rw [List.map_append]; rfl⟩
  rw [Token.Pairs.addOutput_eq, htext]
  rfl

theorem spendOutput_eq {a : Str} {n : ℤ} (v : Option PyInt) (hn : n ∈ (t a).map Prod.fst) :
    spendOutput ⟨a, .int n, v⟩ c s =
      (.ok (), TokenStores.cacheSet s a (render ':' (((t a).eraseP (·.1 = n)).map entryText)) c) := by
  have htext : spentText a (.int n) (TokenStores.cacheGet s a c) =
      .ok (render ':' (((t a).eraseP (·.1 = n)).map entryText)) :=
    (spentText_eq_ok (m := (TokenStores.cacheGet s · c))).mpr
      ⟨_, ⟨pairsAt_eq h a, mem_map_fst_entryText.mpr hn⟩, by rw [← map_eraseP_entryText]; rfl⟩
  rw [Token.Pairs.spendOutput_eq, htext]
  rfl

theorem spendOutput_missing {a : Str} {n : ℤ} (v : Option PyInt) (hn : n ∉ (t a).map Prod.fst) :
    ∃ e, spendOutput ⟨a, .int n, v⟩ c s = (.error e, s) ∧ NotFound e := by
  have htext : ∃ e, spentText a (.int n) (TokenStores.cacheGet s a c) = .error e ∧ NotFound e := by
    unfold spentText rewritten
    rcases amountsOf_false h a with hok | ⟨-, e, he, hnf⟩
    · obtain ⟨msg, hmsg⟩ := removeSeqNo_flat_of_notMem (a := a) (mt mem_map_fst_entryText.mp hn)
      rw [hok]
      exact ⟨⟨.utxoNotFound, msg⟩, by simp [bind, Except.bind, hmsg], Or.inl rfl⟩
    · rw [he]
      exact ⟨e, rfl, hnf⟩
  obtain ⟨e, he, hnf⟩ := htext
  rw [Token.Pairs.spendOutput_eq, he]
  exact ⟨e, rfl, hnf⟩

/-! ### Sums -/

theorem amountOf_eq (a : Str) (z : ℤ) : amountOf s c a z = amountFor (t a) z := by
  have hat : amountAt ((t a).map entryText) z = amountFor (t a) z := by
    rw [← map_textPair, amountAt_textPair, List.find?_map, amountFor]
    simp only [Function.comp_def]
    cases (t a).find? (·.1 = z) with
    | none => rfl
    | some p => exact readInt_intText p.2
  have hget : (TokenStores.cacheGet s a c).getD [] = _ := h a
  rw [← hat, amountOf]
  cases hm : TokenStores.cacheGet s a c with
  | none =>
    rw [eq_nil_of_none h hm]
    rfl
  | some data =>
    rw [eq_render h hm, amountIn_render (clean_entryText _)]

omit h in
/-- The loop gets to the end of a list of numbers. -/
theorem exists_sumLoop (l : List (ℤ × ℤ)) (seqNos : List PyInt) (total : ℤ) :
    ∃ r, UTXOAmounts.sumLoop (flat (l.map entryText)) seqNos total = .ok r := by
  induction l generalizing seqNos total with
  | nil => exact ⟨_, rfl⟩
  | cons p l ih =>
    rw [List.map_cons, sumLoop_cons (readInt_intText p.1)]
    rw [show pyInt (entryText p).2 = .ok p.2 from pyInt_intText p.2]
    simp only [bind, Except.bind]
    split_ifs
    · exact ⟨_, rfl⟩
    · exact ih _ _
    · exact ih _ _

/-- A sum is returned or something is not found, and nothing is written. -/
theorem sumGroups_total (groups : List (Str × List PyInt)) (total : ℤ) :
    ∃ r, sumGroups c groups total s = (r, s) ∧ ∀ e, r = .error e → NotFound e := by
  induction groups generalizing total with
  | nil => exact ⟨.ok total, rfl, nofun⟩
  | cons g groups ih =>
    obtain ⟨a, seqNos⟩ := g
    have hun : sumGroups c ((a, seqNos) :: groups) total s =
        match (amountsOf a false (TokenStores.cacheGet s a c)).bind (·.sumAmounts seqNos) with
        | .ok v => sumGroups c groups (total + v) s
        | .error e => (.error e, s) := by
      show Prog.andThen (getAmounts a false c) _ s = _
      unfold Prog.andThen
      rw [show getAmounts a false c s = (amountsOf a false (TokenStores.cacheGet s a c), s) from rfl]
      rcases amountsOf a false (TokenStores.cacheGet s a c) with e | u
      · rfl
      · show Prog.andThen (ofExcept (u.sumAmounts seqNos)) _ s = _
        unfold Prog.andThen Prog.ofExcept
        simp only [Except.bind]
        cases u.sumAmounts seqNos <;> rfl
    rw [hun]
    rcases amountsOf_false h a with hok | ⟨-, e, he, hnf⟩
    · obtain ⟨⟨v, missing⟩, hr⟩ := exists_sumLoop (t a) seqNos 0
      rw [hok]
      simp only [Except.bind, UTXOAmounts.sumAmounts, hr, bind]
      split_ifs
      · exact ih _
      · exact ⟨_, rfl, by rintro e ⟨⟩; exact Or.inl rfl⟩
    · rw [he]
      exact ⟨.error e, rfl, by rintro e' ⟨⟩; exact hnf⟩

omit h in
theorem isSome_amountFor {l : List (ℤ × ℤ)} {z : ℤ} :
    (amountFor l z).isSome ↔ z ∈ l.map Prod.fst := by
  simp [amountFor]

/-- **A cache that represents a table answers from it.** -/
theorem implements_of_represents : Implements c s t where
  parses a data hm := by
    rw [← hm]
    exact init_of_represents h a
  absent a hm := eq_nil_of_none h hm
  outputs a := by
    unfold getUnspentOutputs getAmounts
    simp only [returns_bind, returns_get, returns_ofExcept]
    refine ⟨_, s, ⟨s, s, ⟨rfl, rfl⟩, (amountsOf_true a _).trans (init_of_represents h a), rfl⟩, ?_, rfl⟩
    have hint : ∀ p ∈ (t a).map fun p => (p.1, PyInt.int p.2), p.2.isBool = false := by
      intro p hp
      obtain ⟨q, -, rfl⟩ := List.mem_map.mp hp
      rfl
    rw [← map_textPair, asOutputList_textPair hint, List.map_map]
    rfl
  spend_missing a n v hn := spendOutput_missing h v hn
  sum inputs hin := by
    rw [returns_sumInputs_distinct]
    refine ⟨rfl, fun i hi => ?_, ?_⟩
    · rw [amountOf_eq h, isSome_amountFor]
      exact hin i hi
    · exact Finset.sum_congr rfl fun k _ => by rw [amountOf_eq h]
  sum_missing inputs hin := by
    obtain ⟨r, hr, hnf⟩ := sumGroups_total h (groupInputs inputs) 0
    cases r with
    | error e => exact ⟨e, hr, hnf e rfl⟩
    | ok v =>
      obtain ⟨i, hi, hnot⟩ := hin
      have hall := (returns_sumInputs_distinct.mp (show Returns (sumInputs inputs c) s v s from hr)).2.1
      have := hall i hi
      rw [amountOf_eq h, isSome_amountFor] at this
      exact absurd this hnot

end AnyStores

/-! ### The stores of a node -/

section Stores
variable {P : Platform} {c : Bool}

/-- The cache is a map from addresses to texts, in either mode. -/
theorem cacheGet_cacheSet (s : Stores P) (k x : Str) :
    (TokenStores.cacheGet (TokenStores.cacheSet s k x c) · c) =
      Function.update (TokenStores.cacheGet s · c) k (some x) := by
  have h := (Token.Views.rel_seen (P := P) c c).cacheSet s _ rfl k x
  have hget : ∀ s' : Stores P, (TokenStores.cacheGet s' · c) = (Token.Views.seen c s').cache := fun s' => by
    funext j
    exact ((Token.Views.rel_seen c c).cacheGet s' _ rfl j).symm
  rw [hget, hget, h]
  rfl

/-- A call does to the cache what it does to the table. -/
theorem represents_program {s : Stores P} {t : Table}
    (h : Represents (TokenStores.cacheGet s · c) t) (call : Call) :
    Represents (TokenStores.cacheGet (call.program c s).2 · c) (call.on t) := by
  cases call with
  | add a n v =>
    rw [Call.program, addOutput_eq h, Call.on, cacheGet_cacheSet]
    exact represents_update h rfl
  | spend a n v =>
    by_cases hn : n ∈ (t a).map Prod.fst
    · rw [Call.program, spendOutput_eq h v hn, Call.on, cacheGet_cacheSet]
      exact represents_update h rfl
    · obtain ⟨e, he, -⟩ := spendOutput_missing h v hn
      have herase : (t a).eraseP (·.1 = n) = t a := List.eraseP_of_forall_not fun p hp => by
        simpa using fun hpn => hn (List.mem_map.mpr ⟨p, hp, hpn⟩)
      rw [Call.program, he, Call.on, herase, Function.update_eq_self]
      exact h

/-- **The cache implements the table.** After any calls from an empty cache, all into the uncommitted
batches or all straight to the store, the texts parse to the lists of the table, and the cache answers
from it. -/
theorem implements {s : Stores P} (hs : ∀ a, TokenStores.cacheGet s a c = none) (calls : List Call) :
    Implements c (storesAfter c calls s) (tableAfter calls) := by
  have hrun : ∀ (calls : List Call) (s : Stores P) (t : Table),
      Represents (TokenStores.cacheGet s · c) t →
      Represents (TokenStores.cacheGet (storesAfter c calls s) · c)
        (calls.foldl (fun t call => call.on t) t) := by
    intro calls
    induction calls with
    | nil => exact fun s t h => h
    | cons call calls ih => exact fun s t h => ih _ _ (represents_program h call)
  exact implements_of_represents (hrun calls s .empty fun a => congrArg (Option.getD · []) (hs a))

end Stores

/-- An address whose outputs are all spent, and which then gets another one. -/
def refill : List Call :=
  [.add Reference.alice.address 1 100, .spend Reference.alice.address 1 none,
    .add Reference.alice.address 2 30]

theorem implements_refill : Implements false
    (storesAfter false refill (Stores.new : Stores Reference.ref)) (tableAfter refill) :=
  implements (fun _ => rfl) refill

end TokenPlugin.Properties.UnspentTable
