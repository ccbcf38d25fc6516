import TokenPlugin.Reference

/-! # The token state and the cache agree

The unspent outputs are kept twice, one key each in the token state and one text for each address in the
cache. Both hold the coins that the ledger leaves unspent, so they agree, in the uncommitted reads and
in the committed ones. -/

namespace TokenPlugin.Properties.Agreement

open Python Token.Types Token.UtxoCache Token.TokenUtils Token.Views Token.Coins Token.Updates Token.Sums
open Token.History Database Node Steps Invariant Runs Lib.Text Lib.Utxo Lib.Program Reference

/-- A state and a cache have the same outputs: the key of an output is mapped to the text of its amount
exactly when the cache lists the output, which it does once. An empty text is not that of an amount. -/
structure Agree (v : View) : Prop where
  iff : ∀ (a : Str) (s : ℤ) (x : PyInt),
    v.state (createStateKey a (.int s)) = some x.str ↔ (intText s, x.str) ∈ outputsOf v.cache a
  nodup : ∀ a, ((outputsOf v.cache a).map Prod.fst).Nodup

/-- Stores that hold the same coins agree. -/
theorem agree_of_holds {v : View} {U : List Coin} (h : Holds v U U) : Agree v where
  iff a s x := by
    have hs : ':' ∉ intText s := notMem_intText (by decide) (by decide)
    have hstate := h.state a (intText s) x.str hs
    rw [mem_outputsOf h.cache, ← hstate]
    exact ⟨fun hx => ⟨hx, x.str_ne_nil⟩, And.left⟩
  nodup a := by
    rw [outputsOf_holds h.cache]
    -- two coins of one address with one number would have one name
    have hkeys : ((U.filter (·.addr = a)).map fun c => (intText c.seqNo : Str)).Nodup := by
      refine List.Nodup.map_on ?_ ?_
      · intro c hc d hd hcd
        have hca : c.addr = a := by simpa using (List.mem_filter.mp hc).2
        have hda : d.addr = a := by simpa using (List.mem_filter.mp hd).2
        have hkey : c.key = d.key := by
          rw [Coin.key, Coin.key, hca, hda, Int.ofNat_inj.mp (intText_injective hcd)]
        exact List.inj_on_of_nodup_map h.nodup (List.mem_filter.mp hc).1 (List.mem_filter.mp hd).1 hkey
      · exact (List.Nodup.of_map Coin.key h.nodup).filter _
    rwa [held, List.map_map, List.map_map]

/-- **The two copies agree.** In every reachable state, what is read with the uncommitted batches on top
agrees, and so does what is committed. -/
theorem agree {P : Platform} {n : Node P} {g : Trace P} {ok : Action → Prop} (h : Reach ok n g) :
    Agree (uncommitted n.stores) ∧ Agree (committed n.stores) := by
  have hinv := reach_inv_true h
  exact ⟨agree_of_holds hinv.built.built.holds.2, agree_of_holds hinv.base.built.holds.2⟩

theorem agree_sample : Agree (uncommitted sampleNode.stores) ∧ Agree (committed sampleNode.stores) :=
  agree (reach_sample (fun _ => True) fun _ _ => trivial)

end TokenPlugin.Properties.Agreement
