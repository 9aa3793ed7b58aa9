import Mathlib.Data.List.TakeWhile
import Triad.Proofs.Teardown

/-!
Leaving a depth twice. One call removes the first run of records at the depth from each chain, so
a second call finds what stands behind a deeper record that followed that run. This cannot happen
where scopes are nested, and `deleteDepth_twice_iff` says exactly when it does.
-/

namespace Triad.SymbolTable

theorem get?_foldl_purge {t : SymbolTable} (h : t.Chained) (depth : Nat)
    (bs : List (Fin chainCount)) {id : SymbolId} {r : Symbol}
    (hr : (bs.foldl (purge depth) t).get? id = some r) : t.get? id = some r := by
  induction bs generalizing t with
  | nil => exact hr
  | cons b bs ih =>
    have hpurged := ih (chained_purge h depth b) hr
    obtain ⟨ids, hids⟩ := h b
    rw [get?_purge depth hids] at hpurged
    split at hpurged
    · cases hpurged
    · exact hpurged

/-- A chain is as it was behind changes of other chains. -/
theorem isChain_foldl_purge {t : SymbolTable} (h : t.Chained) (depth : Nat) {b : Fin chainCount}
    {ids : List SymbolId} (hids : t.IsChain b ids) {bs : List (Fin chainCount)} (hb : b ∉ bs) :
    (bs.foldl (purge depth) t).Chained ∧ (bs.foldl (purge depth) t).IsChain b ids ∧
      ∀ id ∈ ids, (bs.foldl (purge depth) t).get? id = t.get? id := by
  induction bs generalizing t with
  | nil => exact ⟨h, hids, fun _ _ => rfl⟩
  | cons b' bs ih =>
    obtain ⟨hne, hrest⟩ := List.ne_and_not_mem_of_not_mem_cons hb
    obtain ⟨ids', hids'⟩ := h b'
    obtain ⟨hchained, hchain, hsame⟩ :=
      ih (chained_purge h depth b') (isChain_purge_other depth hids' hne hids) hrest
    refine ⟨hchained, hchain, fun id hid => ?_⟩
    have hnot : id ∉ t.expired depth ids' :=
      fun hin => hids'.not_mem_other hids hne hid (mem_of_mem_expired hin)
    exact (hsame id hid).trans (by rw [get?_purge depth hids', if_neg hnot])

/-- What leaving a depth does to one chain. -/
theorem isChain_deleteDepth {t : SymbolTable} (h : t.Chained) {depth : Nat} (hdepth : 2 ≤ depth)
    {b : Fin chainCount} {ids : List SymbolId} (hids : t.IsChain b ids) :
    (t.deleteDepth depth).IsChain b (t.passed depth ids ++ t.kept depth ids) ∧
      ∀ id ∈ t.passed depth ids ++ t.kept depth ids,
        (t.deleteDepth depth).get? id = t.get? id := by
  obtain ⟨before, behind, hall⟩ := List.append_of_mem (List.mem_finRange b)
  have hnodup := List.nodup_finRange chainCount
  rw [hall] at hnodup
  obtain ⟨-, hbehind, hbefore⟩ := List.nodup_append.mp hnodup
  have hb : b ∉ before := fun hin => hbefore b hin b List.mem_cons_self rfl
  have hb' : b ∉ behind := (List.nodup_cons.mp hbehind).1
  unfold deleteDepth
  rw [if_neg (Nat.not_lt_of_le hdepth), hall, List.foldl_append, List.foldl_cons]
  obtain ⟨hchained, hchain, hsame⟩ := isChain_foldl_purge h depth hids hb
  generalize before.foldl (purge depth) t = u at hchained hchain hsame
  have hdeeper : ∀ id ∈ ids, u.isDeeper depth id = t.isDeeper depth id :=
    fun id hid => by rw [isDeeper, isDeeper, hsame id hid]
  have hat : ∀ id ∈ ids.dropWhile (t.isDeeper depth), u.isAt depth id = t.isAt depth id :=
    fun id hid => by rw [isAt, isAt, hsame id ((List.dropWhile_sublist _).mem hid)]
  have hpassed : u.passed depth ids = t.passed depth ids := (while_congr hdeeper).1
  have hkept : u.kept depth ids = t.kept depth ids := by
    rw [kept, (while_congr hdeeper).2, (while_congr hat).2]
    rfl
  obtain ⟨-, hlast, hlater⟩ := isChain_foldl_purge (chained_purge hchained depth b) depth
    (isChain_purge depth hchain) hb'
  rw [hpassed, hkept] at hlast hlater
  refine ⟨hlast, fun id hid => (hlater id hid).trans ?_⟩
  obtain ⟨hin, hnot⟩ := (mem_passed_kept depth hids id).mp hid
  have hexpired : u.expired depth ids = t.expired depth ids := by
    rw [expired, (while_congr hdeeper).2, (while_congr hat).1]
    rfl
  rw [get?_purge depth hchain, hexpired, if_neg hnot]
  exact hsame id hin

/-- The records of a chain that leaving the depth again removes. -/
def cutOff (t : SymbolTable) (depth : Nat) (ids : List SymbolId) : List SymbolId :=
  ((t.kept depth ids).dropWhile (t.isDeeper depth)).takeWhile (t.isAt depth)

theorem expired_deleteDepth {t : SymbolTable} (h : t.Chained) {depth : Nat} (hdepth : 2 ≤ depth)
    {b : Fin chainCount} {ids : List SymbolId} (hids : t.IsChain b ids) :
    (t.deleteDepth depth).expired depth (t.passed depth ids ++ t.kept depth ids) =
      t.cutOff depth ids := by
  obtain ⟨-, hsame⟩ := isChain_deleteDepth h hdepth hids
  have hdeeper : ∀ id ∈ t.passed depth ids ++ t.kept depth ids,
      (t.deleteDepth depth).isDeeper depth id = t.isDeeper depth id :=
    fun id hid => by rw [isDeeper, isDeeper, hsame id hid]
  have hpassed : (t.passed depth ids ++ t.kept depth ids).dropWhile (t.isDeeper depth) =
      (t.kept depth ids).dropWhile (t.isDeeper depth) :=
    List.dropWhile_append_of_pos fun id => List.mem_takeWhile_imp
  have hat : ∀ id ∈ (t.kept depth ids).dropWhile (t.isDeeper depth),
      (t.deleteDepth depth).isAt depth id = t.isAt depth id := by
    intro id hid
    have hmem := List.mem_append_right (t.passed depth ids) ((List.dropWhile_sublist _).mem hid)
    rw [isAt, isAt, hsame id hmem]
  rw [expired, (while_congr hdeeper).2, hpassed, (while_congr hat).1]
  rfl

theorem deleteDepth_twice_iff_cutOff {t : SymbolTable} (h : t.Chained) {depth : Nat}
    (hdepth : 2 ≤ depth) :
    (∀ id, ((t.deleteDepth depth).deleteDepth depth).get? id = (t.deleteDepth depth).get? id) ↔
      ∀ b ids, t.IsChain b ids → t.cutOff depth ids = [] := by
  have honce := chained_deleteDepth h depth
  constructor
  · intro hsame b ids hids
    obtain ⟨hchain, hget⟩ := isChain_deleteDepth h hdepth hids
    obtain ⟨hagain, -⟩ := isChain_deleteDepth honce hdepth hchain
    apply List.eq_nil_iff_forall_not_mem.mpr
    intro id hid
    rw [← expired_deleteDepth h hdepth hids] at hid
    obtain ⟨r, hr, hb⟩ := (hchain.mem_iff id).mp (mem_of_mem_expired hid)
    have hin := (hagain.mem_iff id).mpr ⟨r, (hsame id).trans hr, hb⟩
    exact ((mem_passed_kept depth hchain id).mp hin).2 hid
  · intro hnone id
    cases hr : (t.deleteDepth depth).get? id with
    | none =>
      cases hr' : ((t.deleteDepth depth).deleteDepth depth).get? id with
      | none => rfl
      | some r =>
        rw [deleteDepth, if_neg (Nat.not_lt_of_le hdepth)] at hr'
        rw [get?_foldl_purge honce depth _ hr'] at hr
        cases hr
    | some r =>
      obtain ⟨ids, hids⟩ := h (chainOf r.name)
      obtain ⟨hchain, -⟩ := isChain_deleteDepth h hdepth hids
      obtain ⟨-, hget⟩ := isChain_deleteDepth honce hdepth hchain
      have hin := (hchain.mem_iff id).mpr ⟨r, hr, rfl⟩
      have hnot : id ∉ (t.deleteDepth depth).expired depth
          (t.passed depth ids ++ t.kept depth ids) := by
        rw [expired_deleteDepth h hdepth hids, hnone _ ids hids]
        exact List.not_mem_nil
      exact (hget id ((mem_passed_kept depth hchain id).mpr ⟨hin, hnot⟩)).trans hr

/-- An older record at the depth is cut off from a newer one of its chain by a deeper one between
them, and nothing less deep stands in front of it. -/
def Interleaved (t : SymbolTable) (depth : Nat) : Prop :=
  ∃ i j k older deeper newer, i < j ∧ j < k ∧
    t.get? i = some older ∧ older.depth = depth ∧
    t.get? j = some deeper ∧ depth < deeper.depth ∧ chainOf deeper.name = chainOf older.name ∧
    t.get? k = some newer ∧ newer.depth = depth ∧ chainOf newer.name = chainOf older.name ∧
    ∀ id r, t.get? id = some r → i < id → chainOf r.name = chainOf older.name → depth ≤ r.depth

private theorem dropWhile_append_cons {p : SymbolId → Bool} {x : SymbolId} (hx : ¬ p x = true)
    (xs ys : List SymbolId) : (xs ++ x :: ys).dropWhile p = xs.dropWhile p ++ x :: ys := by
  rw [List.dropWhile_append]
  split
  · rename_i hempty
    rw [List.isEmpty_iff.mp hempty, List.dropWhile_cons_of_neg hx, List.nil_append]
  · rfl

private theorem neg_of_dropWhile_eq_cons {p : SymbolId → Bool} {x : SymbolId}
    {xs rest : List SymbolId} (h : xs.dropWhile p = x :: rest) : ¬ p x = true := by
  have hhead := List.head?_dropWhile_not p xs
  rw [h] at hhead
  exact ne_true_of_eq_false hhead

/-- A second run of records at the depth is found behind a deeper one that follows the first run. -/
private theorem exists_split_of_cutOff {t : SymbolTable} {depth : Nat} {ids : List SymbolId}
    (h : t.cutOff depth ids ≠ []) :
    ∃ xs k ys j zs i ws, ids = xs ++ k :: (ys ++ j :: (zs ++ i :: ws)) ∧
      t.isAt depth k = true ∧ t.isDeeper depth j = true ∧ t.isAt depth i = true ∧
      ∀ x ∈ xs ++ ys ++ zs, t.isDeeper depth x = true ∨ t.isAt depth x = true := by
  have hsplit := passed_expired_kept t depth ids
  have hdrop : ids.dropWhile (t.isDeeper depth) = t.expired depth ids ++ t.kept depth ids :=
    (List.takeWhile_append_dropWhile ..).symm
  have hkept := (List.takeWhile_append_dropWhile (p := t.isDeeper depth)
    (l := t.kept depth ids)).symm
  have hpassed : ∀ x ∈ t.passed depth ids, t.isDeeper depth x = true :=
    fun x => List.mem_takeWhile_imp
  have hexpired : ∀ x ∈ t.expired depth ids, t.isAt depth x = true :=
    fun x => List.mem_takeWhile_imp
  have hbetween : ∀ x ∈ (t.kept depth ids).takeWhile (t.isDeeper depth),
      t.isDeeper depth x = true := fun x => List.mem_takeWhile_imp
  unfold cutOff at h
  generalize (t.kept depth ids).takeWhile (t.isDeeper depth) = between at hkept hbetween
  cases hrest : (t.kept depth ids).dropWhile (t.isDeeper depth) with
  | nil => exact absurd (by rw [hrest]; rfl) h
  | cons i ws =>
    rw [hrest] at h hkept
    have hi : t.isAt depth i = true := by
      refine Classical.byContradiction fun hi => h ?_
      rw [List.takeWhile_cons_of_neg hi]
    cases between with
    | nil => exact absurd hi (neg_of_dropWhile_eq_cons hkept)
    | cons j zs =>
      have hj := hbetween j List.mem_cons_self
      generalize t.expired depth ids = expired at hsplit hdrop hexpired
      rw [hkept] at hsplit hdrop
      cases expired with
      | nil => exact absurd hj (neg_of_dropWhile_eq_cons hdrop)
      | cons k ys =>
        refine ⟨t.passed depth ids, k, ys, j, zs, i, ws, hsplit.symm,
          hexpired k List.mem_cons_self, hj, hi, ?_⟩
        intro x hx
        rw [List.mem_append, List.mem_append] at hx
        rcases hx with (hx | hx) | hx
        · exact .inl (hpassed x hx)
        · exact .inr (hexpired x (List.mem_cons_of_mem _ hx))
        · exact .inl (hbetween x (List.mem_cons_of_mem _ hx))

private theorem cutOff_ne_nil_of_split {t : SymbolTable} {depth : Nat} {k j i : SymbolId}
    (xs ys zs ws : List SymbolId) (hk : ¬ t.isDeeper depth k = true)
    (hj : ¬ t.isAt depth j = true) (hi : t.isAt depth i = true)
    (hi' : ¬ t.isDeeper depth i = true)
    (hbetween : ∀ x ∈ xs ++ k :: (ys ++ j :: zs),
      t.isDeeper depth x = true ∨ t.isAt depth x = true) :
    t.cutOff depth (xs ++ k :: (ys ++ j :: (zs ++ i :: ws))) ≠ [] := by
  -- Each walk stops at `k`, `j` and `i` at the latest, and only where the next one starts.
  have hfirst : (xs ++ k :: (ys ++ j :: (zs ++ i :: ws))).dropWhile (t.isDeeper depth) =
      (xs.dropWhile (t.isDeeper depth) ++ k :: ys) ++ j :: (zs ++ i :: ws) := by
    rw [dropWhile_append_cons hk]
    simp
  have hkept : t.kept depth (xs ++ k :: (ys ++ j :: (zs ++ i :: ws))) =
      ((xs.dropWhile (t.isDeeper depth) ++ k :: ys).dropWhile (t.isAt depth) ++ j :: zs) ++
        i :: ws := by
    rw [kept, hfirst, dropWhile_append_cons hj]
    simp
  have hsub : ∀ x ∈ (xs.dropWhile (t.isDeeper depth) ++ k :: ys).dropWhile (t.isAt depth) ++
      j :: zs, t.isDeeper depth x = true ∨ t.isAt depth x = true := by
    intro x hx
    apply hbetween
    rcases List.mem_append.mp hx with hx | hx
    · have hx := (List.dropWhile_sublist _).mem hx
      rcases List.mem_append.mp hx with hx | hx
      · exact List.mem_append_left _ ((List.dropWhile_sublist _).mem hx)
      · rcases List.mem_cons.mp hx with rfl | hx
        · simp
        · simp [hx]
    · simp only [List.mem_append, List.mem_cons] at hx ⊢
      exact .inr (.inr (.inr hx))
  generalize (xs.dropWhile (t.isDeeper depth) ++ k :: ys).dropWhile (t.isAt depth) ++ j :: zs =
    front at hkept hsub
  unfold cutOff
  rw [hkept, dropWhile_append_cons hi']
  cases hfront : front.dropWhile (t.isDeeper depth) with
  | nil => simp [hi]
  | cons x rest =>
    have hx : x ∈ front := (List.dropWhile_sublist _).mem (hfront ▸ List.mem_cons_self)
    have hat := (hsub x hx).resolve_left (neg_of_dropWhile_eq_cons hfront)
    simp [hat]

/-- What is newer than a record of a chain stands in front of it. -/
private theorem mem_front_of_lt {front rest : List SymbolId} {i x : SymbolId}
    (hsorted : (front ++ i :: rest).Pairwise (· > ·)) (hx : x ∈ front ++ i :: rest) (hlt : i < x) :
    x ∈ front := by
  refine (List.mem_append.mp hx).resolve_right fun hx => ?_
  rcases List.mem_cons.mp hx with rfl | hx
  · exact Nat.lt_irrefl _ hlt
  · have hrest := (List.pairwise_append.mp hsorted).2.1
    exact Nat.lt_asymm hlt ((List.pairwise_cons.mp hrest).1 x hx)

theorem exists_cutOff_of_interleaved {t : SymbolTable} (h : t.Chained) {depth : Nat}
    (hinterleaved : t.Interleaved depth) :
    ∃ b ids, t.IsChain b ids ∧ t.cutOff depth ids ≠ [] := by
  obtain ⟨i, j, k, older, deeper, newer, hij, hjk, hi, hidepth, hj, hjdepth, hjchain, hk, hkdepth,
    hkchain, hfront⟩ := hinterleaved
  obtain ⟨ids, hids⟩ := h (chainOf older.name)
  refine ⟨_, ids, hids, ?_⟩
  -- The three records stand in this order, the newest first.
  have hsorted := hids.newest_first
  have hjmem := (hids.mem_iff j).mpr ⟨deeper, hj, hjchain⟩
  have hkmem := (hids.mem_iff k).mpr ⟨newer, hk, hkchain⟩
  obtain ⟨as, ws, rfl⟩ := List.append_of_mem ((hids.mem_iff i).mpr ⟨older, hi, rfl⟩)
  have hbetween : ∀ x ∈ as, t.isDeeper depth x = true ∨ t.isAt depth x = true := by
    intro x hx
    obtain ⟨r, hr, hchain⟩ := (hids.mem_iff x).mp (List.mem_append_left _ hx)
    have hlt : i < x := (List.pairwise_append.mp hsorted).2.2 x hx i List.mem_cons_self
    rw [isDeeper_iff hr, isAt_iff hr]
    exact (Nat.lt_or_eq_of_le (hfront x r hr hlt hchain)).imp_right Eq.symm
  have hsorted' := (List.pairwise_append.mp hsorted).1
  have hkmem' := mem_front_of_lt hsorted hkmem (Nat.lt_trans hij hjk)
  obtain ⟨as', zs, rfl⟩ := List.append_of_mem (mem_front_of_lt hsorted hjmem hij)
  obtain ⟨xs, ys, rfl⟩ := List.append_of_mem (mem_front_of_lt hsorted' hkmem' hjk)
  have hcut := cutOff_ne_nil_of_split xs ys zs ws
    (by rw [isDeeper_iff hk]; omega) (by rw [isAt_iff hj]; omega) ((isAt_iff hi).mpr hidepth)
    (by rw [isDeeper_iff hi]; omega) (fun x hx => hbetween x (by simpa using hx))
  simpa using hcut

theorem interleaved_of_cutOff {t : SymbolTable} {depth : Nat} {b : Fin chainCount}
    {ids : List SymbolId} (hids : t.IsChain b ids) (hcut : t.cutOff depth ids ≠ []) :
    t.Interleaved depth := by
  obtain ⟨xs, k, ys, j, zs, i, ws, rfl, hk, hj, hi, hbetween⟩ := exists_split_of_cutOff hcut
  have hsorted := hids.newest_first
  obtain ⟨older, holder, hichain⟩ := (hids.mem_iff i).mp (by simp)
  obtain ⟨deeper, hdeeper, hjchain⟩ := (hids.mem_iff j).mp (by simp)
  obtain ⟨newer, hnewer, hkchain⟩ := (hids.mem_iff k).mp (by simp)
  have hpast := List.pairwise_cons.mp (List.pairwise_append.mp hsorted).2.1
  have hpast' := List.pairwise_cons.mp (List.pairwise_append.mp hpast.2).2.1
  have hfront : ∀ x ∈ xs ++ k :: (ys ++ j :: zs),
      t.isDeeper depth x = true ∨ t.isAt depth x = true := by
    intro x hx
    by_cases hxk : x = k
    · exact .inr (hxk ▸ hk)
    · by_cases hxj : x = j
      · exact .inl (hxj ▸ hj)
      · exact hbetween x (by simpa [hxk, hxj] using hx)
  refine ⟨i, j, k, older, deeper, newer, hpast'.1 i (by simp), hpast.1 j (by simp), holder,
    (isAt_iff holder).mp hi, hdeeper, (isDeeper_iff hdeeper).mp hj, hjchain.trans hichain.symm,
    hnewer, (isAt_iff hnewer).mp hk, hkchain.trans hichain.symm, ?_⟩
  intro id r hr hlt hchain
  have hmem := (hids.mem_iff id).mpr ⟨r, hr, hchain.trans hichain⟩
  have hsplit : xs ++ k :: (ys ++ j :: (zs ++ i :: ws)) =
      (xs ++ k :: (ys ++ j :: zs)) ++ i :: ws := by simp
  rw [hsplit] at hsorted hmem
  have hor := hfront id (mem_front_of_lt hsorted hmem hlt)
  rw [isDeeper_iff hr, isAt_iff hr] at hor
  omega

theorem not_interleaved_of_nested {t : SymbolTable} (h : t.Nested) (depth : Nat) :
    ¬ t.Interleaved depth := by
  rintro ⟨i, j, k, older, deeper, newer, -, hjk, -, -, hj, hjdepth, -, hk, hkdepth, -⟩
  have hle := h j k deeper newer hj hk hjk
  omega

theorem get?_deleteDepth_twice_iff {t : SymbolTable} (h : t.Chained) (depth : Nat) :
    (∀ id, ((t.deleteDepth depth).deleteDepth depth).get? id = (t.deleteDepth depth).get? id) ↔
      depth < 2 ∨ ¬ t.Interleaved depth := by
  rcases Nat.lt_or_ge depth 2 with hdepth | hdepth
  · have hkept : ∀ u : SymbolTable, u.deleteDepth depth = u := by
      intro u
      rw [deleteDepth, if_pos hdepth]
    simp [hkept, hdepth]
  · rw [deleteDepth_twice_iff_cutOff h hdepth, or_iff_right (Nat.not_lt_of_le hdepth)]
    constructor
    · intro hnone hinterleaved
      obtain ⟨b, ids, hids, hcut⟩ := exists_cutOff_of_interleaved h hinterleaved
      exact hcut (hnone b ids hids)
    · intro hnot b ids hids
      exact Classical.byContradiction fun hcut => hnot (interleaved_of_cutOff hids hcut)

/-- Leaving a depth a second time changes nothing exactly if the depth is one that is never left,
or no deeper record cuts off an older record at the depth from a newer one. Where scopes are nested,
as they are on every run of the translator, leaving a depth once is enough. -/
theorem deleteDepth_twice_iff (history : List Operation) (depth : Nat) :
    ((∀ id, (((after history).deleteDepth depth).deleteDepth depth).get? id =
        ((after history).deleteDepth depth).get? id) ↔
      depth < 2 ∨ ¬ (after history).Interleaved depth) ∧
    ((after history).Nested →
      ∀ id, (((after history).deleteDepth depth).deleteDepth depth).get? id =
        ((after history).deleteDepth depth).get? id) := by
  have htwice := get?_deleteDepth_twice_iff (chained_after history) depth
  exact ⟨htwice, fun hnested => htwice.mpr (.inr (not_interleaved_of_nested hnested depth))⟩

/-- A record at depth 2 behind one of its name at depth 1. -/
theorem deleteDepth_twice_iff_hidden :
    let outer := Symbol.new "x" (.newVar .int) 1
    let inner := Symbol.new "x" (.newVar .int) 2
    let once := (after [.insert outer, .insert inner]).deleteDepth 2
    once.get? 0 = some outer ∧ ∀ id, (once.deleteDepth 2).get? id = once.get? id := by
  intro outer inner once
  exact ⟨by decide +kernel, (deleteDepth_twice_iff _ 2).2 (nested_pair (by decide))⟩

/-- A record at depth 2, one at depth 3 and another at depth 2, all of one chain: the oldest stays
when depth 2 is left, and goes when it is left again. -/
theorem deleteDepth_not_idempotent :
    let at2 := Symbol.new "x" (.newVar .int) 2
    let at3 := Symbol.new "x" (.newVar .int) 3
    let once := (after [.insert at2, .insert at3, .insert at2]).deleteDepth 2
    ¬ ∀ id, (once.deleteDepth 2).get? id = once.get? id := by
  intro at2 at3 once hsame
  have h0 : (after [.insert at2, .insert at3, .insert at2]).get? 0 = some at2 := by decide +kernel
  have h1 : (after [.insert at2, .insert at3, .insert at2]).get? 1 = some at3 := by decide +kernel
  have h2 : (after [.insert at2, .insert at3, .insert at2]).get? 2 = some at2 := by decide +kernel
  refine ((get?_deleteDepth_twice_iff (chained_after _) 2).mp hsame).elim (by decide) fun h => h ?_
  refine ⟨0, 1, 2, at2, at3, at2, by decide, by decide, h0, rfl, h1, by decide, rfl, h2, rfl, rfl,
    ?_⟩
  intro id r hr hlt _
  have hnewer : ∀ n : Nat, 0 < n → n < 3 → n = 1 ∨ n = 2 := by omega
  obtain rfl | rfl := hnewer id hlt (get?_lt hr)
  · cases h1.symm.trans hr
    decide
  · cases h2.symm.trans hr
    decide

end Triad.SymbolTable
