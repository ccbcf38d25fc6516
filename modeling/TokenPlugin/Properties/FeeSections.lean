import TokenPlugin.Fees.ThreePhaseCommitHandler

/-! # The fee data that replicas agree on

A replica that has fee transactions in its batch compares the fee data of a PRE-PREPARE with its own. One
that has none does not look at them, so it accepts, and passes on, fee data it would never attach. -/

namespace TokenPlugin.Properties.FeeSections

open Python Messages.Fields Fees.ThreePhaseCommitHandler

variable {S T : Type} [DecidableEq S] [DecidableEq T] {F : MessageFormat S T} {n : Replica S T}
  {prePrepare : PrePrepare}

variable (F n prePrepare) in
/-- The replica accepts the PRE-PREPARE. -/
def Accepts : Prop := checkRecvdPrePrepare F n prePrepare = .ok ()

variable (F n prePrepare) in
/-- The PRE-PREPARE has the fee data that the replica would attach. -/
def Matches : Prop := feeSection prePrepare.pluginFields = attached F n

variable (F n prePrepare) in
/-- The PRE-PREPARE is accepted exactly when its fee data match, and then what is copied out of it into
PREPARE and ORDERED matches too. -/
def Agreed : Prop :=
  (Accepts F n prePrepare ↔ Matches F n prePrepare) ∧
    (Accepts F n prePrepare →
      (∀ prepare prepare' : Prepare, (addToPrepare prepare prePrepare : Except (Raised S T) _) = .ok prepare' →
        prepare' = prepare ∨ feeSection prepare'.pluginFields = attached F n) ∧
      ∀ ordered ordered' : Ordered, (addToOrdered ordered prePrepare : Except (Raised S T) _) = .ok ordered' →
        ordered' = ordered ∨ feeSection ordered'.pluginFields = attached F n)

variable (F n prePrepare) in
/-- The fee data match but for the number, which is a boolean or a float equal to it. -/
def Disguised : Prop :=
  ∃ c, c ≠ .int n.feesInCurrentBatch ∧ equalsInt F c n.feesInCurrentBatch = true ∧
    feeSection prePrepare.pluginFields = some ⟨c, .str (F.stateRoots.serialize n.headHash),
      .str (F.txnRoots.serialize n.uncommittedRootHash)⟩

variable (F n prePrepare) in
/-- The replica looks at the fee data, if there are any, and the number is not disguised. -/
def Comparable : Prop :=
  (n.feesInCurrentBatch = 0 → feeSection prePrepare.pluginFields = none) ∧
    (0 < n.feesInCurrentBatch → ¬Disguised F n prePrepare)

/-! ### The check -/

omit [DecidableEq S] [DecidableEq T] in
theorem readRoot_eq_ok {Root : Type} {f : RootSerializer Root} {v : Json} {r : Root} :
    (readRoot f v : Except (Raised S T) Root) = .ok r ↔ v = .str (f.serialize r) := by
  cases v with
  | str s =>
    unfold readRoot
    rw [Json.str.injEq, ← f.deserialize_eq_some s r]
    cases hd : f.deserialize s <;> simp [hd]
  | _ => exact iff_of_false nofun nofun

omit [DecidableEq S] [DecidableEq T] in
/-- A missing root is read as an empty text, which no root is written as. -/
theorem getD_eq_str {Root : Type} {f : RootSerializer Root} {v : Option Json} {r : Root} :
    v.getD (.str []) = .str (f.serialize r) ↔ v.getD .null = .str (f.serialize r) := by
  cases v with
  | some v => rfl
  | none => exact iff_of_false (fun h => f.serialize_ne_nil r (Json.str.inj h).symm) nofun

/-- The comparison returns when number and roots are those of the replica. -/
theorem checkFees_eq_ok {fees : Json} : checkFees F n fees = .ok () ↔
    ∃ c, equalsInt F c n.feesInCurrentBatch = true ∧
      feeDataOf fees = ⟨c, .str (F.stateRoots.serialize n.headHash),
        .str (F.txnRoots.serialize n.uncommittedRootHash)⟩ := by
  cases fees with
  | obj l =>
    have hstate := fun r => readRoot_eq_ok (S := S) (T := T) (f := F.stateRoots)
      (v := (Json.field l stateRootKey).getD (.str [])) (r := r)
    have htxn := fun r => readRoot_eq_ok (S := S) (T := T) (f := F.txnRoots)
      (v := (Json.field l txnRootKey).getD (.str [])) (r := r)
    simp only [checkFees, dictGet, bind, Except.bind, feeDataOf, valueOf, FeeData.mk.injEq]
    constructor
    · intro h
      split_ifs at h with hc
      · split at h
        · cases h
        · next r hr =>
          split_ifs at h with hroot
          · split at h
            · cases h
            · next t ht =>
              split_ifs at h with htxnRoot
              · subst hroot htxnRoot
                exact ⟨_, hc, rfl, getD_eq_str.mp ((hstate _).mp hr), getD_eq_str.mp ((htxn _).mp ht)⟩
    · rintro ⟨c, hc, rfl, hr, ht⟩
      rw [if_pos hc, (hstate _).mpr (getD_eq_str.mpr hr), (htxn _).mpr (getD_eq_str.mpr ht)]
      simp
  | _ =>
    refine iff_of_false (by rintro ⟨⟩) ?_
    rintro ⟨_, _, h⟩
    cases (FeeData.mk.inj h).2.1

/-- **What a replica with fee transactions accepts.** -/
theorem accepts_of_pos (hl : prePrepare.ledgerId ≠ tokenLedgerId) (hn : 0 < n.feesInCurrentBatch) :
    Accepts F n prePrepare ↔ ∃ c, equalsInt F c n.feesInCurrentBatch = true ∧
      feeSection prePrepare.pluginFields = some ⟨c, .str (F.stateRoots.serialize n.headHash),
        .str (F.txnRoots.serialize n.uncommittedRootHash)⟩ := by
  unfold Accepts checkRecvdPrePrepare
  rw [if_pos hl, if_pos hn]
  rcases prePrepare with ⟨_, _ | _ | l⟩
  · exact iff_of_false nofun fun ⟨_, _, h⟩ => nomatch h
  · exact iff_of_false nofun fun ⟨_, _, h⟩ => nomatch h
  · show (if ((Json.field l feesKey).getD .null).truthy = true then
        checkFees F n ((Json.field l feesKey).getD .null) else .error (.expected feesKey)) = .ok () ↔
      ∃ c, _ ∧ ((Json.field l feesKey).filter Json.truthy).map feeDataOf = some _
    cases Json.field l feesKey with
    | none => exact iff_of_false nofun fun ⟨_, _, h⟩ => nomatch h
    | some v =>
      simp only [Option.getD_some]
      split_ifs with ht
      · rw [checkFees_eq_ok]
        simp [Option.filter, ht]
      · exact iff_of_false nofun fun ⟨_, _, h⟩ => by simp [Option.filter, ht] at h

/-- A replica without fee transactions accepts everything. -/
theorem accepts_of_zero (hn : n.feesInCurrentBatch = 0) : Accepts F n prePrepare := by
  unfold Accepts checkRecvdPrePrepare
  rw [if_neg (show ¬0 < n.feesInCurrentBatch by omega)]
  split_ifs <;> rfl

omit [DecidableEq S] [DecidableEq T] in
theorem attached_of_pos (hn : 0 < n.feesInCurrentBatch) : attached F n =
    some ⟨.int n.feesInCurrentBatch, .str (F.stateRoots.serialize n.headHash),
      .str (F.txnRoots.serialize n.uncommittedRootHash)⟩ := if_pos hn

omit [DecidableEq S] [DecidableEq T] in
theorem attached_of_zero (hn : n.feesInCurrentBatch = 0) : attached F n = none :=
  if_neg (by omega)

/-! ### Copies -/

section Copies
omit [DecidableEq S] [DecidableEq T]

/-- What is copied matches when the PRE-PREPARE does. -/
theorem copied_matches {fields : PluginFields} (hl : prePrepare.ledgerId ≠ tokenLedgerId)
    (hm : Matches F n prePrepare)
    (h : (prePrepareFeesData prePrepare : Except (Raised S T) PluginFields) = .ok fields) :
    feeSection fields = attached F n := (feeSection_of_feesData hl h).trans hm

/-- A message is left as it is, or the fields that are copied are put into it. -/
theorem copy_eq_ok {α : Type} {data : Except (Raised S T) PluginFields} {x x' : α}
    {put : Option (List (Str × Json)) → α}
    (h : (data >>= fun fields => match fields with
      | none => .ok x
      | some fields => .ok (put fields)) = .ok x') :
    x' = x ∨ ∃ fields, data = .ok (some fields) ∧ x' = put fields := by
  cases data with
  | error e => cases h
  | ok fields =>
    cases fields with
    | none => exact Or.inl (Except.ok.inj h).symm
    | some fields => exact Or.inr ⟨fields, rfl, (Except.ok.inj h).symm⟩

theorem addToPrepare_eq_ok {prepare prepare' : Prepare}
    (h : (addToPrepare prepare prePrepare : Except (Raised S T) _) = .ok prepare') :
    prepare' = prepare ∨
      (prePrepareFeesData prePrepare : Except (Raised S T) _) = .ok prepare'.pluginFields := by
  refine (copy_eq_ok h).imp_right ?_
  rintro ⟨fields, hd, rfl⟩
  exact hd

theorem addToOrdered_eq_ok {ordered ordered' : Ordered}
    (h : (addToOrdered ordered prePrepare : Except (Raised S T) _) = .ok ordered') :
    ordered' = ordered ∨
      (prePrepareFeesData prePrepare : Except (Raised S T) _) = .ok ordered'.pluginFields := by
  refine (copy_eq_ok h).imp_right ?_
  rintro ⟨fields, hd, rfl⟩
  exact hd

end Copies

/-! ### Agreement -/

/-- Acceptance means a match exactly when the fee data can be compared. -/
theorem accepts_iff_matches_iff (hl : prePrepare.ledgerId ≠ tokenLedgerId) :
    (Accepts F n prePrepare ↔ Matches F n prePrepare) ↔ Comparable F n prePrepare := by
  rcases Nat.eq_zero_or_pos n.feesInCurrentBatch with hn | hn
  · unfold Matches Comparable
    rw [iff_true_left (accepts_of_zero hn), attached_of_zero hn]
    exact ⟨fun h => ⟨fun _ => h, fun hpos => by omega⟩, fun h => h.1 hn⟩
  · rw [accepts_of_pos hl hn]
    unfold Matches Comparable Disguised
    rw [attached_of_pos hn]
    constructor
    · refine fun h => ⟨fun hz => by omega, ?_⟩
      rintro - ⟨c, hne, hc, hs⟩
      have heq := h.mp ⟨c, hc, hs⟩
      rw [hs] at heq
      exact hne (FeeData.mk.inj (Option.some.inj heq)).1
    · rintro ⟨-, h⟩
      constructor
      · rintro ⟨c, hc, hs⟩
        by_contra hne
        refine h hn ⟨c, ?_, hc, hs⟩
        rintro rfl
        exact hne hs
      · exact fun hs => ⟨_, by simp [equalsInt], hs⟩

/-- A replica with fee transactions accepts what was made from its own fee data only. -/
theorem accepts_addToPrePrepare_iff (hl : prePrepare.ledgerId ≠ tokenLedgerId)
    (hf : prePrepare.pluginFields = none) (hn : 0 < n.feesInCurrentBatch) (m : Replica S T) :
    Accepts F n (addToPrePrepare F m prePrepare) ↔ m = n := by
  have hl' : (addToPrePrepare F m prePrepare).ledgerId ≠ tokenLedgerId := by
    rwa [ledgerId_addToPrePrepare]
  rw [accepts_of_pos hl' hn, feeSection_addToPrePrepare hl hf]
  constructor
  · rintro ⟨c, hc, hs⟩
    -- the number attached is an integer, so it is equal when it compares equal
    unfold attached at hs
    split_ifs at hs
    obtain ⟨rfl, hstate, htxn⟩ := FeeData.mk.inj (Option.some.inj hs)
    have hcount : m.feesInCurrentBatch = n.feesInCurrentBatch := by simpa [equalsInt] using hc
    cases m
    cases n
    simp only at hcount hstate htxn
    rw [hcount, F.stateRoots.serialize_injective (Json.str.inj hstate),
      F.txnRoots.serialize_injective (Json.str.inj htxn)]
  · rintro rfl
    exact ⟨_, by simp [equalsInt], attached_of_pos hn⟩

/-- **When fee data are checked.** A replica accepts a PRE-PREPARE exactly with the fee data it would
attach, and copies nothing else, if and only if the fee data can be compared. One that was made from fee
data of another replica is accepted exactly by the replicas that agree on all three of them, if and only if
the replica has fee transactions or does agree. -/
theorem agreed_iff (hl : prePrepare.ledgerId ≠ tokenLedgerId) :
    (Agreed F n prePrepare ↔ Comparable F n prePrepare) ∧
      (prePrepare.pluginFields = none → ∀ m : Replica S T,
        ((Accepts F n (addToPrePrepare F m prePrepare) ↔ m = n) ↔ 0 < n.feesInCurrentBatch ∨ m = n)) := by
  constructor
  · rw [← accepts_iff_matches_iff hl]
    refine ⟨And.left, fun h => ⟨h, fun ha => ?_⟩⟩
    have hm := h.mp ha
    exact ⟨fun _ _ hp => (addToPrepare_eq_ok hp).imp_right (copied_matches hl hm),
      fun _ _ ho => (addToOrdered_eq_ok ho).imp_right (copied_matches hl hm)⟩
  · intro hf m
    rcases Nat.eq_zero_or_pos n.feesInCurrentBatch with hn | hn
    · rw [iff_true_left (accepts_of_zero hn), hn]
      simp
    · exact iff_of_true (accepts_addToPrePrepare_iff hl hf hn m) (Or.inl hn)

/-- A node accepts what it has attached itself. -/
theorem accepts_own {P : Platform} {F : MessageFormat P.state.Root P.ledger.Hash} (n : Database.Node P)
    (hl : prePrepare.ledgerId ≠ tokenLedgerId) (hf : prePrepare.pluginFields = none) :
    Accepts F (replicaOf n) (addToPrePrepare F (replicaOf n) prePrepare) := by
  rcases Nat.eq_zero_or_pos (replicaOf n).feesInCurrentBatch with hn | hn
  · exact accepts_of_zero hn
  · exact (accepts_addToPrePrepare_iff hl hf hn _).mpr rfl

/-! ### A replica without fee transactions -/

/-- Roots that are numbers. -/
def numberRoots : RootSerializer ℕ where
  serialize r := Lib.Text.intText r
  deserialize s := ((Lib.Text.readInt s).map Int.toNat).filter fun r => Lib.Text.intText r = s
  deserialize_eq_some s r := by
    rw [Option.filter_eq_some_iff]
    constructor
    · rintro ⟨-, h⟩
      exact (of_decide_eq_true h).symm
    · rintro rfl
      simp [Lib.Text.readInt_intText]
  serialize_ne_nil r := Lib.Text.intText_ne_nil r

/-- A float equals an integer when it is written with a zero after the point. -/
def numberFormat : MessageFormat ℕ ℕ := ⟨numberRoots, numberRoots, fun text z =>
  text = Lib.Text.intText z ++ (".0" : Str)⟩

/-- A PRE-PREPARE of the domain ledger, as plenum has made it. -/
def bare : PrePrepare := ⟨1, none⟩

theorem agreed_iff_one :
    (Agreed numberFormat ⟨1, 7, 9⟩ bare ↔ Comparable numberFormat ⟨1, 7, 9⟩ bare) ∧
      (bare.pluginFields = none → ∀ m : Replica ℕ ℕ,
        ((Accepts numberFormat ⟨1, 7, 9⟩ (addToPrePrepare numberFormat m bare) ↔ m = ⟨1, 7, 9⟩) ↔
          0 < 1 ∨ m = ⟨1, 7, 9⟩)) :=
  agreed_iff (n := ⟨1, 7, 9⟩) (by decide)

/-- A replica without fee transactions accepts the fee data of one with a fee transaction and other
roots. -/
theorem not_agreed_zero :
    bare.ledgerId ≠ tokenLedgerId ∧
      Accepts numberFormat ⟨0, 7, 9⟩ (addToPrePrepare numberFormat ⟨1, 8, 10⟩ bare) ∧
      ¬Matches numberFormat ⟨0, 7, 9⟩ (addToPrePrepare numberFormat ⟨1, 8, 10⟩ bare) ∧
      ¬Agreed numberFormat ⟨0, 7, 9⟩ (addToPrePrepare numberFormat ⟨1, 8, 10⟩ bare) := by
  have hacc : Accepts numberFormat ⟨0, 7, 9⟩ (addToPrePrepare numberFormat ⟨1, 8, 10⟩ bare) := rfl
  have hno : ¬Matches numberFormat ⟨0, 7, 9⟩ (addToPrePrepare numberFormat ⟨1, 8, 10⟩ bare) := by
    unfold Matches
    decide
  exact ⟨by decide, hacc, hno, fun h => hno (h.1.mp hacc)⟩

end TokenPlugin.Properties.FeeSections
