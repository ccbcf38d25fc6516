import Mathlib.Data.List.Sort
import Mathlib.Data.List.TakeWhile
import Mathlib.Data.Nat.Basic

/-! # Ascending lists, served page by page

`insertBy` keeps a list in the order of a key. A list whose keys are strictly ascending can be served in
pages: each page holds at most `limit` entries and names the key that the next one starts from. A
client that asks for page after page (`collect`) gets the whole list, each entry once
(`collect_eq`). -/

namespace TokenPlugin.Lib.Paging

variable {α β κ : Type} [LinearOrder κ] {key : α → κ}

/-! ### Insertion -/

/-- An entry goes behind those that are not greater. -/
def insertBy (key : α → κ) (L : List α) (x : α) : List α :=
  L.takeWhile (¬key x < key ·) ++ x :: L.dropWhile (¬key x < key ·)

theorem perm_insertBy (L : List α) (x : α) : (insertBy key L x).Perm (x :: L) := by
  have h := (List.takeWhile_append_dropWhile (p := fun y => decide (¬key x < key y)) (l := L)).symm
  exact List.perm_middle.trans (by rw [← h])

theorem sorted_insertBy {L : List α} (h : L.Pairwise (key · ≤ key ·)) (x : α) :
    (insertBy key L x).Pairwise (key · ≤ key ·) := by
  have hsplit := List.takeWhile_append_dropWhile (p := fun y => decide (¬key x < key y)) (l := L)
  have h' := h
  rw [← hsplit, List.pairwise_append] at h'
  obtain ⟨hbefore, hafter, -⟩ := h'
  have hle : ∀ y ∈ L.takeWhile (¬key x < key ·), key y ≤ key x := fun y hy => by
    have := List.mem_takeWhile_imp hy
    exact not_lt.mp (by simpa using this)
  have hge : ∀ y ∈ L.dropWhile (¬key x < key ·), key x ≤ key y := by
    cases hd : L.dropWhile (¬key x < key ·) with
    | nil => simp
    | cons z zs =>
      have hz : key x < key z := by
        have := List.head?_dropWhile_not (fun y => decide (¬key x < key y)) L
        rw [hd] at this
        simpa using this
      intro y hy
      rw [hd] at hafter
      rcases List.mem_cons.mp hy with rfl | hy
      · exact hz.le
      · exact hz.le.trans ((List.pairwise_cons.mp hafter).1 y hy)
  rw [insertBy, List.pairwise_append]
  refine ⟨hbefore, List.pairwise_cons.mpr ⟨hge, hafter⟩, fun y hy z hz => ?_⟩
  rcases List.mem_cons.mp hz with rfl | hz
  · exact hle y hy
  · exact (hle y hy).trans (hge z hz)

theorem perm_foldl_insertBy (xs L : List α) : (xs.foldl (insertBy key) L).Perm (L ++ xs) := by
  induction xs generalizing L with
  | nil => simp
  | cons x xs ih =>
    refine (ih _).trans ?_
    exact ((perm_insertBy L x).append_right xs).trans List.perm_middle.symm

theorem sorted_foldl_insertBy {xs L : List α} (h : L.Pairwise (key · ≤ key ·)) :
    (xs.foldl (insertBy key) L).Pairwise (key · ≤ key ·) := by
  induction xs generalizing L with
  | nil => exact h
  | cons x xs ih => exact ih (sorted_insertBy h x)

/-! ### Ascending lists -/

/-- The keys are strictly ascending. -/
def Ascending (key : α → κ) (L : List α) : Prop := L.Pairwise (key · < key ·)

theorem Ascending.of_sorted {L : List α} (h : L.Pairwise (key · ≤ key ·))
    (hn : (L.map key).Nodup) : Ascending key L := by
  rw [List.Nodup, List.pairwise_map] at hn
  exact (h.and hn).imp fun ⟨hle, hne⟩ => lt_of_le_of_ne hle hne

theorem Ascending.nodup {L : List α} (h : Ascending key L) : L.Nodup :=
  h.imp fun hlt he => absurd (congrArg key he) hlt.ne

/-- Entries with different keys can be put in ascending order. -/
theorem exists_ascending {xs : List α} (hn : (xs.map key).Nodup) :
    ∃ L, Ascending key L ∧ L.Perm xs := by
  have hperm : (xs.foldl (insertBy key) []).Perm xs := by simpa using perm_foldl_insertBy xs []
  exact ⟨_, .of_sorted (sorted_foldl_insertBy .nil) ((hperm.map key).nodup_iff.mpr hn), hperm⟩

/-- The entry with the least key comes first. -/
theorem Ascending.exists_eq_cons {L : List α} (h : Ascending key L) {x : α} (hx : x ∈ L)
    (hmin : ∀ y ∈ L, key x ≤ key y) : ∃ M, L = x :: M := by
  cases L with
  | nil => cases hx
  | cons y M =>
    rcases List.mem_cons.mp hx with rfl | hx
    · exact ⟨M, rfl⟩
    · exact absurd ((List.pairwise_cons.mp h).1 x hx) (not_lt.mpr (hmin y List.mem_cons_self))

/-- An ascending list is determined by its entries. -/
theorem Ascending.ext {L M : List α} (hL : Ascending key L) (hM : Ascending key M)
    (h : ∀ x, x ∈ L ↔ x ∈ M) : L = M :=
  ((List.perm_ext_iff_of_nodup hL.nodup hM.nodup).mpr h).eq_of_pairwise
    (fun _ _ _ _ hab hba => absurd (hab.trans hba) (lt_irrefl _)) hL hM

theorem Ascending.filter {L : List α} (h : Ascending key L) (p : α → Bool) :
    Ascending key (L.filter p) := h.sublist List.filter_sublist

/-- The entries from a key on are those from the first place on where it is reached. -/
theorem Ascending.drop_findIdx {L : List α} (h : Ascending key L) (k : κ) :
    L.drop (L.findIdx (k ≤ key ·)) = L.filter (k ≤ key ·) := by
  induction L with
  | nil => rfl
  | cons x L ih =>
    obtain ⟨hx, hL⟩ := List.pairwise_cons.mp h
    by_cases hk : k ≤ key x
    · rw [List.findIdx_cons, show decide (k ≤ key x) = true by simpa using hk]
      refine (List.filter_eq_self.mpr fun y hy => ?_).symm
      rcases List.mem_cons.mp hy with rfl | hy
      · simpa using hk
      · simpa using hk.trans (hx y hy).le
    · rw [List.findIdx_cons, show decide (k ≤ key x) = false by simpa using hk,
        List.filter_cons_of_neg (by simpa using hk)]
      exact ih hL

theorem Ascending.findIdx_getElem {L : List α} (h : Ascending key L) {i : ℕ} (hi : i < L.length) :
    L.findIdx (key L[i] ≤ key ·) = i := by
  rw [List.findIdx_eq hi]
  refine ⟨by simp, fun j hj => ?_⟩
  have := List.pairwise_iff_getElem.mp h j i (hj.trans hi) hi hj
  simpa using this

/-! ### Pages -/

/-- A page of what is left: its entries, and the key that the next page starts from. -/
def pageOf (limit : ℕ) (key : α → κ) (f : α → β) (L : List α) : List β × Option κ :=
  ((L.take limit).map f, (L[limit]?).map key)

/-- How many pages there are; a list without entries has one, an empty one. -/
def pageCount (limit n : ℕ) : ℕ := max 1 ((n + limit - 1) / limit)

/-- A client that asks for page after page, `fuel` of them at most: the entries and the number of
requests. -/
def collect (serve : Option κ → Option (List β × Option κ)) : ℕ → Option κ → Option (List β × ℕ)
  | 0, _ => none
  | fuel + 1, start => do
    let (page, next) ← serve start
    match next with
    | none => some (page, 1)
    | some k => (collect serve fuel (some k)).map fun r => (page ++ r.1, r.2 + 1)

theorem pageCount_of_le {limit n : ℕ} (hl : 0 < limit) (h : n ≤ limit) : pageCount limit n = 1 := by
  have : (n + limit - 1) / limit < 2 := by
    rw [Nat.div_lt_iff_lt_mul hl]; omega
  unfold pageCount
  omega

theorem pageCount_of_lt {limit n : ℕ} (hl : 0 < limit) (h : limit < n) :
    pageCount limit n = pageCount limit (n - limit) + 1 := by
  have hstep : (n + limit - 1) / limit = (n - limit + limit - 1) / limit + 1 := by
    rw [← Nat.add_div_right _ hl]
    congr 1
    omega
  have hpos : 1 ≤ (n - limit + limit - 1) / limit := by
    rw [Nat.le_div_iff_mul_le hl]; omega
  unfold pageCount
  omega

omit [LinearOrder κ] in
/-- **Paging loses and repeats nothing.** Where the first request is served the first page of a list,
and a request for the key of a later entry the page that starts there, the client gets the whole list,
in as many requests as there are pages. -/
theorem collect_eq {serve : Option κ → Option (List β × Option κ)} {limit : ℕ} {f : α → β}
    {L : List α} (hl : 0 < limit) (hfirst : serve none = some (pageOf limit key f L))
    (hnext : ∀ i (hi : i < L.length), 0 < i →
      serve (some (key L[i])) = some (pageOf limit key f (L.drop i)))
    {fuel : ℕ} (hfuel : pageCount limit L.length ≤ fuel) :
    collect serve fuel none = some (L.map f, pageCount limit L.length) := by
  -- the same for what is left from any place on, by induction on the number of requests
  have key : ∀ (fuel i : ℕ) (start : Option κ), i ≤ L.length →
      serve start = some (pageOf limit key f (L.drop i)) → pageCount limit (L.length - i) ≤ fuel →
      collect serve fuel start = some ((L.drop i).map f, pageCount limit (L.length - i)) := by
    intro fuel
    induction fuel with
    | zero =>
      intro i start _ _ hfuel
      have : 1 ≤ pageCount limit (L.length - i) := le_max_left _ _
      omega
    | succ fuel ih =>
      intro i start hi hs hfuel
      unfold collect
      rw [hs]
      by_cases hle : L.length - i ≤ limit
      · have hnone : (L.drop i)[limit]? = none := by simp; omega
        have htake : (L.drop i).take limit = L.drop i := List.take_of_length_le (by simpa using hle)
        simp only [pageOf, hnone, htake, Option.map_none, Option.bind_eq_bind, Option.bind_some,
          pageCount_of_le hl hle]
      · have hlt : i + limit < L.length := by omega
        have hsome : (L.drop i)[limit]? = some L[i + limit] := by
          rw [List.getElem?_drop, List.getElem?_eq_getElem hlt]
        have hcount : pageCount limit (L.length - i) = pageCount limit (L.length - (i + limit)) + 1 := by
          rw [pageCount_of_lt hl (by omega), Nat.sub_sub]
        have hrest := ih (i + limit) (some (key L[i + limit])) hlt.le
          (hnext (i + limit) hlt (by omega)) (by omega)
        simp only [pageOf, hsome, Option.map_some, Option.bind_eq_bind, Option.bind_some, hrest,
          hcount, Option.some.injEq, Prod.mk.injEq, and_true]
        rw [← List.map_append, ← List.drop_drop, List.take_append_drop]
  simpa using key fuel 0 none (Nat.zero_le _) (by simpa using hfirst) (by simpa using hfuel)

end TokenPlugin.Lib.Paging
