import Mathlib.Data.List.Basic
import Triad.Proofs.SymbolChains

/-!
Leaving a depth. The walk along a chain stops at the first record that is not at the depth, so it
finds them all only where scopes are nested: where no record is less deep than an older one. There
`deleteDepth` removes exactly the records at the depth (`get?_deleteDepth`). Where all records are
less deep than the depth, opening a scope there and leaving it gives back what was visible before,
as long as the records of the scope are at the depth when it is left (`deleteDepth_undoes_scope`);
`Opened` says what the table is like in between.
-/

namespace Triad.SymbolTable

/-- No live record is less deep than an older one. -/
def Nested (t : SymbolTable) : Prop :=
  ∀ i j r q, t.get? i = some r → t.get? j = some q → i < j → r.depth ≤ q.depth

theorem nested_of_get? {t t' : SymbolTable} (h : t.Nested)
    (hsub : ∀ id r, t'.get? id = some r → t.get? id = some r) : t'.Nested :=
  fun i j r q hi hj hlt => h i j r q (hsub i r hi) (hsub j q hj) hlt

/-- Two records, the second one as deep as the first one. -/
theorem nested_pair {r q : Symbol} (h : r.depth ≤ q.depth) :
    (after [.insert r, .insert q]).Nested := by
  intro i j r' q' hi hj hlt
  change ((empty.insert r).insert q).get? _ = _ at hi hj
  have hnext : empty.nextId = 0 ∧ (empty.insert r).nextId = 1 := ⟨rfl, rfl⟩
  simp only [get?_insert, get?_empty, hnext] at hi hj
  grind

theorem isAt_iff {t : SymbolTable} {depth : Nat} {id : SymbolId} {r : Symbol}
    (h : t.get? id = some r) : t.isAt depth id = true ↔ r.depth = depth := by
  simp [isAt, h]

theorem isDeeper_iff {t : SymbolTable} {depth : Nat} {id : SymbolId} {r : Symbol}
    (h : t.get? id = some r) : t.isDeeper depth id = true ↔ depth < r.depth := by
  simp [isDeeper, h]

/-- Where no record is deeper, those at the depth come first. -/
private theorem mem_takeWhile_isAt {t : SymbolTable} (h : t.Nested) {depth : Nat}
    {ids : List SymbolId} (hsorted : ids.Pairwise (· > ·))
    (hlive : ∀ i ∈ ids, ∃ r, t.get? i = some r ∧ r.depth ≤ depth) (id : SymbolId) :
    id ∈ ids.takeWhile (t.isAt depth) ↔ id ∈ ids ∧ t.isAt depth id = true := by
  induction ids with
  | nil => simp
  | cons i ids ih =>
    obtain ⟨hnewest, hrest⟩ := List.pairwise_cons.mp hsorted
    have ih := ih hrest fun j hj => hlive j (List.mem_cons_of_mem _ hj)
    by_cases hat : t.isAt depth i = true
    · rw [List.takeWhile_cons_of_pos hat, List.mem_cons, List.mem_cons, ih, or_and_right]
      exact or_congr_left ⟨fun heq => ⟨heq, heq ▸ hat⟩, And.left⟩
    · -- This record is less deep, and so are all older ones.
      rw [List.takeWhile_cons_of_neg hat]
      simp only [List.not_mem_nil, false_iff]
      intro hid
      obtain ⟨r, hr, hle⟩ := hlive i List.mem_cons_self
      rw [isAt_iff hr] at hat
      rcases List.mem_cons.mp hid.1 with rfl | hmem
      · exact hat ((isAt_iff hr).mp hid.2)
      · obtain ⟨q, hq, -⟩ := hlive id hid.1
        have holder := h id i q r hq hr (hnewest id hmem)
        have hq' := (isAt_iff hq).mp hid.2
        omega

theorem mem_expired {t : SymbolTable} (h : t.Nested) (depth : Nat) {ids : List SymbolId}
    (hsorted : ids.Pairwise (· > ·)) (hlive : ∀ i ∈ ids, ∃ r, t.get? i = some r) (id : SymbolId) :
    id ∈ t.expired depth ids ↔ id ∈ ids ∧ t.isAt depth id = true := by
  induction ids with
  | nil => simp [expired]
  | cons i ids ih =>
    obtain ⟨r, hr⟩ := hlive i List.mem_cons_self
    obtain ⟨hnewest, hrest⟩ := List.pairwise_cons.mp hsorted
    by_cases hdeep : t.isDeeper depth i = true
    · have hexpired : t.expired depth (i :: ids) = t.expired depth ids := by
        rw [expired, List.dropWhile_cons_of_pos hdeep]
        rfl
      have hi : ¬ t.isAt depth i = true := by
        rw [isAt_iff hr]
        rw [isDeeper_iff hr] at hdeep
        omega
      rw [hexpired, ih hrest fun j hj => hlive j (List.mem_cons_of_mem _ hj), List.mem_cons]
      constructor
      · exact fun hid => ⟨.inr hid.1, hid.2⟩
      · rintro ⟨rfl | hid, hat⟩
        · exact absurd hat hi
        · exact ⟨hid, hat⟩
    · rw [expired, List.dropWhile_cons_of_neg hdeep]
      rw [isDeeper_iff hr] at hdeep
      refine mem_takeWhile_isAt h hsorted (fun j hj => ?_) id
      rcases List.mem_cons.mp hj with rfl | hj'
      · exact ⟨r, hr, by omega⟩
      · obtain ⟨q, hq⟩ := hlive j hj
        have holder := h j i q r hq hr (hnewest j hj')
        exact ⟨q, hq, by omega⟩

theorem get?_purge_nested {t : SymbolTable} (hchained : t.Chained) (h : t.Nested) (depth : Nat)
    (b : Fin chainCount) (id : SymbolId) (r : Symbol) :
    (purge depth t b).get? id = some r ↔
      t.get? id = some r ∧ ¬ (r.depth = depth ∧ chainOf r.name = b) := by
  obtain ⟨ids, hids⟩ := hchained b
  have hlive : ∀ i ∈ ids, ∃ r, t.get? i = some r := by
    intro i hi
    obtain ⟨r, hr, -⟩ := (hids.mem_iff i).mp hi
    exact ⟨r, hr⟩
  have hexpired : t.get? id = some r →
      (id ∈ t.expired depth ids ↔ r.depth = depth ∧ chainOf r.name = b) := by
    intro hg
    rw [mem_expired h depth hids.newest_first hlive id, isAt_iff hg, hids.mem_iff id, hg]
    simp [and_comm]
  rw [get?_purge depth hids]
  constructor
  · intro hr
    split at hr
    · cases hr
    · rename_i hnot
      exact ⟨hr, mt (hexpired hr).mpr hnot⟩
  · rintro ⟨hr, hnot⟩
    rw [if_neg (mt (hexpired hr).mp hnot)]
    exact hr

/-- In a nested table exactly the records at the depth are removed. -/
theorem get?_deleteDepth {t : SymbolTable} (hchained : t.Chained) (h : t.Nested) {depth : Nat}
    (hdepth : 2 ≤ depth) (id : SymbolId) (r : Symbol) :
    (t.deleteDepth depth).get? id = some r ↔ t.get? id = some r ∧ r.depth ≠ depth := by
  have hfold : ∀ (bs : List (Fin chainCount)) (t : SymbolTable), t.Chained → t.Nested →
      ((bs.foldl (purge depth) t).get? id = some r ↔
        t.get? id = some r ∧ ¬ (r.depth = depth ∧ chainOf r.name ∈ bs)) := by
    intro bs
    induction bs with
    | nil => simp
    | cons b bs ih =>
      intro t hchained h
      have hget := get?_purge_nested hchained h depth b
      have hnested : (purge depth t b).Nested :=
        nested_of_get? h fun i q hi => ((hget i q).mp hi).1
      rw [List.foldl_cons, ih _ (chained_purge hchained depth b) hnested, hget id r, List.mem_cons]
      constructor
      · rintro ⟨⟨hr, hb⟩, hbs⟩
        exact ⟨hr, fun hin => hin.2.elim (fun h => hb ⟨hin.1, h⟩) (fun h => hbs ⟨hin.1, h⟩)⟩
      · rintro ⟨hr, hnot⟩
        exact ⟨⟨hr, fun hb => hnot ⟨hb.1, .inl hb.2⟩⟩, fun hbs => hnot ⟨hbs.1, .inr hbs.2⟩⟩
  unfold deleteDepth
  rw [if_neg (by omega), hfold _ t hchained h]
  simp [List.mem_finRange]

/-! ## Records at other depths -/

section Others

variable {depth : Nat} {id : SymbolId}

/-- Nothing but records at the depth is removed, whatever the links are. -/
theorem get?_removeRun_of_ne (n : Nat) {t : SymbolTable} (place : Option SymbolId)
    (h : ∀ r, t.get? id = some r → r.depth ≠ depth) :
    (removeRun depth n t place).1.get? id = t.get? id := by
  induction n generalizing t place with
  | zero => cases place <;> rfl
  | succ n ih =>
    cases place with
    | none => rfl
    | some i =>
      rw [removeRun]
      split
      · rename_i e he
        split
        · rename_i hat
          have hne : id ≠ i := by
            rintro rfl
            exact h e.symbol ((get?_eq_some_iff t id _).mpr ⟨e, he, rfl⟩) hat
          have hsame : (t.remove i).get? id = t.get? id := by
            rw [get?, entryAt?_remove, if_neg hne, get?]
          rw [ih _ (hsame ▸ h), hsame]
        · rfl
      · rfl

theorem get?_purge_of_ne {t : SymbolTable} (b : Fin chainCount)
    (h : ∀ r, t.get? id = some r → r.depth ≠ depth) : (purge depth t b).get? id = t.get? id := by
  unfold purge
  dsimp only
  rw [get?_relink, get?_removeRun_of_ne _ _ h]

/-- Records at other depths stay, and none comes back. -/
theorem get?_deleteDepth_of_ne {t : SymbolTable}
    (h : ∀ r, t.get? id = some r → r.depth ≠ depth) :
    (t.deleteDepth depth).get? id = t.get? id := by
  unfold deleteDepth
  split
  · rfl
  · generalize List.finRange chainCount = bs
    induction bs generalizing t with
    | nil => rfl
    | cons b bs ih =>
      have hsame := get?_purge_of_ne b h
      rw [List.foldl_cons, ih (hsame ▸ h), hsame]

end Others

/-! ## Numbers and views -/

theorem nextId_removeRun (depth n : Nat) (t : SymbolTable) (place : Option SymbolId) :
    (removeRun depth n t place).1.nextId = t.nextId := by
  induction n generalizing t place with
  | zero => cases place <;> rfl
  | succ n ih =>
    cases place with
    | none => rfl
    | some id =>
      rw [removeRun]
      split
      · split
        · rw [ih]
          exact Array.size_setIfInBounds
        · rfl
      · rfl

theorem nextId_relink (t : SymbolTable) (b : Fin chainCount) (last place : Option SymbolId) :
    (t.relink b last place).nextId = t.nextId := by
  cases last with
  | none => rfl
  | some id => exact Array.size_modify

theorem nextId_purge (depth : Nat) (t : SymbolTable) (b : Fin chainCount) :
    (purge depth t b).nextId = t.nextId := by
  unfold purge
  dsimp only
  rw [nextId_relink, nextId_removeRun]

theorem nextId_deleteDepth (t : SymbolTable) (depth : Nat) :
    (t.deleteDepth depth).nextId = t.nextId := by
  unfold deleteDepth
  split
  · rfl
  · generalize List.finRange chainCount = bs
    induction bs generalizing t with
    | nil => rfl
    | cons b bs ih => rw [List.foldl_cons, ih, nextId_purge]

private theorem filterMap_zipIdx (entries : List (Option Entry)) (k : Nat) :
    (entries.zipIdx k).filterMap (fun p => p.1.map fun e => (p.2, e.symbol)) =
      (List.range' k entries.length).filterMap fun id =>
        (entries[id - k]?.join).map fun e => (id, e.symbol) := by
  induction entries generalizing k with
  | nil => rfl
  | cons e entries ih =>
    have hrest : (List.range' (k + 1) entries.length).filterMap
          (fun id => (entries[id - (k + 1)]?.join).map fun e => (id, e.symbol)) =
        (List.range' (k + 1) entries.length).filterMap
          fun id => ((e :: entries)[id - k]?.join).map fun e => (id, e.symbol) := by
      apply List.filterMap_congr
      intro id hid
      have hk : id - k = id - (k + 1) + 1 := by
        have := (List.mem_range'_1.mp hid).1
        omega
      rw [hk, List.getElem?_cons_succ]
    rw [List.zipIdx_cons, List.length_cons, List.range'_succ, List.filterMap_cons,
      List.filterMap_cons, ih, hrest]
    simp

/-- The live records are those of the numbers in use, one after the other. -/
theorem toList_eq (t : SymbolTable) {n : Nat} (h : t.nextId ≤ n) :
    t.toList = (List.range n).filterMap fun id => (t.get? id).map fun r => (id, r) := by
  have hused : t.toList = (List.range t.nextId).filterMap fun id =>
      (t.get? id).map fun r => (id, r) := by
    have hviews : t.toList = t.arena.toList.zipIdx.filterMap
        fun p => p.1.map fun e => (p.2, e.symbol) := rfl
    rw [hviews, filterMap_zipIdx, List.range_eq_range']
    apply List.filterMap_congr
    intro id _
    simp only [get?, entryAt?, Nat.sub_zero, Array.getElem?_toList, Option.map_map]
    rfl
  obtain ⟨k, rfl⟩ := Nat.exists_eq_add_of_le h
  rw [hused, List.range_add, List.filterMap_append, List.filterMap_map]
  refine (List.append_nil _).symm.trans (congrArg _ (Eq.symm ?_))
  apply List.filterMap_eq_nil_iff.mpr
  intro i _
  have hfree : t.get? (t.nextId + i) = none := by
    cases hr : t.get? (t.nextId + i) with
    | none => rfl
    | some r => exact absurd (get?_lt hr) (Nat.not_lt_of_le (Nat.le_add_right _ _))
  rw [Function.comp_apply, hfree]
  rfl

/-- More records than before, if one is added to the old ones. -/
theorem size_lt {t t' : SymbolTable} (hold : ∀ id < t.nextId, t'.get? id = t.get? id)
    {id : SymbolId} {r : Symbol} (hnew : t.nextId ≤ id) (hr : t'.get? id = some r) :
    t.size < t'.size := by
  have hlt := get?_lt hr
  obtain ⟨k, hk⟩ := Nat.exists_eq_add_of_le (Nat.le_trans hnew (Nat.le_of_lt hlt))
  have hsame : (List.range t.nextId).filterMap (fun i => (t'.get? i).map fun q => (i, q)) =
      (List.range t.nextId).filterMap fun i => (t.get? i).map fun q => (i, q) :=
    List.filterMap_congr fun i hi => by rw [hold i (List.mem_range.mp hi)]
  have hmore : (id, r) ∈ ((List.range k).map (t.nextId + ·)).filterMap
      fun i => (t'.get? i).map fun q => (i, q) := by
    refine List.mem_filterMap.mpr ⟨id, List.mem_map.mpr ⟨id - t.nextId, List.mem_range.mpr ?_,
      Nat.add_sub_of_le hnew⟩, by rw [hr]; rfl⟩
    exact Nat.sub_lt_left_of_lt_add hnew (hk ▸ hlt)
  rw [size, size, toList_eq t (Nat.le_refl _), toList_eq t' (Nat.le_refl _), hk, List.range_add,
    List.filterMap_append, List.length_append, hsame]
  exact Nat.lt_add_of_pos_right (List.length_pos_of_mem hmore)

/-! ## A scope opened and left -/

/-- What is done while a scope is open: a record is inserted at its depth, or one inserted since is
changed in any way. The numbers of the scope start at `first`. -/
inductive ScopeStep (depth : Nat) (first : SymbolId)
  | insert (s : Symbol) (atDepth : s.depth = depth)
  | update (id : SymbolId) (inside : first ≤ id) (f : Symbol → Symbol)

def ScopeStep.apply {depth : Nat} {first : SymbolId} (t : SymbolTable) :
    ScopeStep depth first → SymbolTable
  | insert s _ => t.insert s
  | update id _ f => t.modify id f

/-- All records with a number from `first` on are at the depth. -/
def AllAt (t : SymbolTable) (depth : Nat) (first : SymbolId) : Prop :=
  ∀ id r, first ≤ id → t.get? id = some r → r.depth = depth

/-- The table `u` is the table `t` with a scope open. The records of the scope stand at the front of
the chains; `home` tells the chain of each, whatever its name is by now. -/
structure Opened (t : SymbolTable) (home : SymbolId → Fin chainCount) (u : SymbolTable) : Prop where
  next_le : t.nextId ≤ u.nextId
  older : ∀ id < t.nextId, u.entryAt? id = t.entryAt? id
  front : ∀ b, ∃ ids, u.Path (u.heads.get b) ids (t.heads.get b) ∧ ids.Pairwise (· > ·) ∧
    ∀ id, id ∈ ids ↔ t.nextId ≤ id ∧ home id = b ∧ ∃ r, u.get? id = some r

namespace Opened

variable {depth : Nat} {t u : SymbolTable} {home : SymbolId → Fin chainCount}

theorem refl (t : SymbolTable) (home : SymbolId → Fin chainCount) : Opened t home t := by
  refine ⟨Nat.le_refl _, fun _ _ => rfl, fun b => ⟨[], rfl, .nil, fun id => ?_⟩⟩
  simp only [List.not_mem_nil, false_iff]
  rintro ⟨hle, -, r, hr⟩
  exact absurd (get?_lt hr) (Nat.not_lt_of_le hle)

theorem insert (h : Opened t home u) (s : Symbol) :
    Opened t (fun id => if id = u.nextId then chainOf s.name else home id) (u.insert s) where
  next_le := by
    rw [nextId_insert]
    exact Nat.le_succ_of_le h.next_le
  older := by
    intro id hid
    have hne : id ≠ u.nextId := Nat.ne_of_lt (Nat.lt_of_lt_of_le hid h.next_le)
    rw [entryAt?_insert, if_neg hne]
    exact h.older id hid
  front := by
    intro b
    obtain ⟨ids, hpath, hsorted, hmem⟩ := h.front b
    have hlt : ∀ id ∈ ids, id < u.nextId := by
      intro id hid
      obtain ⟨r, hr⟩ := path_live hpath id hid
      exact get?_lt hr
    have hpath' : (u.insert s).Path (u.heads.get b) ids (t.heads.get b) := by
      refine path_congr (fun id hid => ?_) hpath
      rw [entryAt?_insert, if_neg (Nat.ne_of_lt (hlt id hid))]
    by_cases hb : b = chainOf s.name
    · subst hb
      refine ⟨u.nextId :: ids, ⟨?_, ⟨s, u.heads.get (chainOf s.name)⟩, ?_, hpath'⟩,
        List.pairwise_cons.mpr ⟨hlt, hsorted⟩, ?_⟩
      · rw [SymbolTable.insert, get_set_self]
      · rw [entryAt?_insert, if_pos rfl]
      · intro id
        rw [List.mem_cons, get?_insert]
        by_cases hid : id = u.nextId
        · simp [hid, h.next_le]
        · simp [hid, hmem id]
    · refine ⟨ids, ?_, hsorted, fun id => ?_⟩
      · rw [SymbolTable.insert, get_set_ne _ hb]
        exact hpath'
      · rw [hmem id, get?_insert]
        by_cases hid : id = u.nextId
        · -- The new record belongs to another chain, and its number was unused.
          subst hid
          have hnone : ¬ ∃ r, u.get? u.nextId = some r := by
            rintro ⟨r, hr⟩
            exact Nat.lt_irrefl _ (get?_lt hr)
          simp [hnone, Ne.symm hb]
        · simp [hid]

theorem modify (h : Opened t home u) {id : SymbolId} (hid : t.nextId ≤ id) (f : Symbol → Symbol) :
    Opened t home (u.modify id f) where
  next_le := by
    rw [nextId_modify]
    exact h.next_le
  older := by
    intro i hi
    have hne : i ≠ id := Nat.ne_of_lt (Nat.lt_of_lt_of_le hi hid)
    rw [entryAt?_modify, if_neg hne]
    exact h.older i hi
  front := by
    intro b
    obtain ⟨ids, hpath, hsorted, hmem⟩ := h.front b
    refine ⟨ids, path_congr (fun i _ => ?_) hpath, hsorted, fun i => ?_⟩
    · rw [entryAt?_modify]
      split
      · cases u.entryAt? i <;> rfl
      · rfl
    · rw [hmem i, get?_modify]
      split
      · cases u.get? i <;> simp
      · rfl

theorem step (h : Opened t home u) (o : ScopeStep depth t.nextId) :
    ∃ home', Opened t home' (o.apply u) := by
  cases o with
  | insert s _ => exact ⟨_, h.insert s⟩
  | update id hid f => exact ⟨home, h.modify hid f⟩

theorem run (h : Opened t home u) (steps : List (ScopeStep depth t.nextId)) :
    ∃ home', Opened t home' (steps.foldl ScopeStep.apply u) := by
  induction steps generalizing u home with
  | nil => exact ⟨home, h⟩
  | cons o steps ih =>
    obtain ⟨home', h'⟩ := h.step o
    exact ih h'

/-- All older records are as they were. -/
theorem get?_older (h : Opened t home u) {id : SymbolId} (hid : id < t.nextId) :
    u.get? id = t.get? id := by
  rw [get?, get?, h.older id hid]

section Leaving

variable (hchained : t.Chained) (hbelow : ∀ id r, t.get? id = some r → r.depth < depth)
include hchained hbelow

/-- Leaving the scope takes its records from the front of a chain and joins the chain as it was. -/
theorem purge_eq (h : Opened t home u) (hat : u.AllAt depth t.nextId) (b : Fin chainCount) :
    ∃ ids, (∀ id, id ∈ ids ↔ t.nextId ≤ id ∧ home id = b ∧ ∃ r, u.get? id = some r) ∧
      purge depth u b = (u.removeAll ids).relink b none (t.heads.get b) := by
  obtain ⟨ids, hpath, hsorted, hmem⟩ := h.front b
  obtain ⟨old, hold⟩ := hchained b
  have hget : ∀ id ∈ old, ∃ r, u.get? id = some r ∧ r.depth < depth ∧ id < t.nextId := by
    intro id hid
    obtain ⟨r, hr, -⟩ := (hold.mem_iff id).mp hid
    exact ⟨r, (h.get?_older (get?_lt hr)).trans hr, hbelow id r hr, get?_lt hr⟩
  have hall : u.Path (u.heads.get b) (ids ++ old) none := by
    refine (path_append ids old).mpr ⟨_, hpath, path_congr (fun id hid => ?_) hold.path⟩
    obtain ⟨-, -, -, hlt⟩ := hget id hid
    rw [h.older id hlt]
  have hordered : (ids ++ old).Pairwise (· > ·) := by
    refine List.pairwise_append.mpr ⟨hsorted, hold.newest_first, fun i hi j hj => ?_⟩
    obtain ⟨-, -, -, hlt⟩ := hget j hj
    exact Nat.lt_of_lt_of_le hlt ((hmem i).mp hi).1
  have hfront : ∀ id ∈ ids, u.isAt depth id = true := by
    intro id hid
    obtain ⟨hle, -, r, hr⟩ := (hmem id).mp hid
    exact (isAt_iff hr).mpr (hat id r hle hr)
  have hnotAt : ∀ id ∈ old, ¬ u.isAt depth id = true := by
    intro id hid
    obtain ⟨r, hr, hlt, -⟩ := hget id hid
    rw [isAt_iff hr]
    exact Nat.ne_of_lt hlt
  have hnotDeeper : ∀ id ∈ ids ++ old, ¬ u.isDeeper depth id = true := by
    intro id hid
    rcases List.mem_append.mp hid with hid | hid
    · obtain ⟨hle, -, r, hr⟩ := (hmem id).mp hid
      rw [isDeeper_iff hr, hat id r hle hr]
      exact Nat.lt_irrefl depth
    · obtain ⟨r, hr, hlt, -⟩ := hget id hid
      rw [isDeeper_iff hr]
      exact Nat.lt_asymm hlt
  have hpassed : u.passed depth (ids ++ old) = [] := by
    unfold passed
    cases hids : ids ++ old with
    | nil => rfl
    | cons i rest => exact List.takeWhile_cons_of_neg (hnotDeeper i (hids ▸ List.mem_cons_self))
  have hdrop : (ids ++ old).dropWhile (u.isDeeper depth) = ids ++ old := by
    have hsplit := List.takeWhile_append_dropWhile (p := u.isDeeper depth) (l := ids ++ old)
    rwa [show (ids ++ old).takeWhile (u.isDeeper depth) = [] from hpassed] at hsplit
  have hrest : old.takeWhile (u.isAt depth) = [] ∧ old.dropWhile (u.isAt depth) = old := by
    cases old with
    | nil => exact ⟨rfl, rfl⟩
    | cons i rest =>
      have hi := hnotAt i List.mem_cons_self
      exact ⟨List.takeWhile_cons_of_neg hi, List.dropWhile_cons_of_neg hi⟩
  have hexpired : u.expired depth (ids ++ old) = ids := by
    rw [expired, hdrop, List.takeWhile_append_of_pos hfront, hrest.1, List.append_nil]
  have hkept : u.kept depth (ids ++ old) = old := by
    rw [kept, hdrop, List.dropWhile_append_of_pos hfront, hrest.2]
  refine ⟨ids, hmem, ?_⟩
  rw [SymbolTable.purge_eq depth hall hordered, hpassed, hexpired, hkept, hold.head]
  rfl

theorem entryAt?_purge (h : Opened t home u) (hat : u.AllAt depth t.nextId) (b : Fin chainCount)
    (id : SymbolId) :
    (purge depth u b).entryAt? id =
      if t.nextId ≤ id ∧ home id = b then none else u.entryAt? id := by
  obtain ⟨ids, hmem, hpurge⟩ := h.purge_eq hchained hbelow hat b
  rw [hpurge, entryAt?_relink_none, entryAt?_removeAll]
  by_cases hid : t.nextId ≤ id ∧ home id = b
  · rw [if_pos hid]
    split
    · rfl
    · rename_i hnot
      cases hentry : u.entryAt? id with
      | none => rfl
      | some e =>
        refine absurd ((hmem id).mpr ⟨hid.1, hid.2, e.symbol, ?_⟩) hnot
        exact (get?_eq_some_iff u id _).mpr ⟨e, hentry, rfl⟩
  · rw [if_neg hid, if_neg fun hin => hid ⟨((hmem id).mp hin).1, ((hmem id).mp hin).2.1⟩]

theorem get?_purge (h : Opened t home u) (hat : u.AllAt depth t.nextId) (b : Fin chainCount)
    (id : SymbolId) :
    (purge depth u b).get? id = if t.nextId ≤ id ∧ home id = b then none else u.get? id := by
  rw [get?, h.entryAt?_purge hchained hbelow hat b id]
  split <;> rfl

theorem allAt_purge (h : Opened t home u) (hat : u.AllAt depth t.nextId) (b : Fin chainCount) :
    (SymbolTable.purge depth u b).AllAt depth t.nextId := by
  intro id r hle hr
  rw [h.get?_purge hchained hbelow hat b] at hr
  split at hr
  · cases hr
  · exact hat id r hle hr

theorem purge (h : Opened t home u) (hat : u.AllAt depth t.nextId) (b : Fin chainCount) :
    Opened t home (purge depth u b) := by
  have hentry := h.entryAt?_purge hchained hbelow hat b
  have hget := h.get?_purge hchained hbelow hat b
  refine ⟨by rw [nextId_purge]; exact h.next_le, ?_, ?_⟩
  · intro id hid
    rw [hentry, if_neg fun hin => Nat.not_lt_of_le hin.1 hid]
    exact h.older id hid
  · intro b'
    obtain ⟨ids, -, hpurge⟩ := h.purge_eq hchained hbelow hat b
    by_cases hb : b' = b
    · subst hb
      refine ⟨[], ?_, .nil, fun id => ?_⟩
      · rw [hpurge]
        exact get_set_self _ _ _
      · simp only [List.not_mem_nil, false_iff]
        rintro ⟨hle, hhome, r, hr⟩
        rw [hget, if_pos ⟨hle, hhome⟩] at hr
        cases hr
    · obtain ⟨ids', hpath', hsorted', hmem'⟩ := h.front b'
      have hother : ∀ id, home id = b' → ¬ (t.nextId ≤ id ∧ home id = b) :=
        fun id hid hin => hb (hid.symm.trans hin.2)
      refine ⟨ids', ?_, hsorted', fun id => ?_⟩
      · have hhead : (SymbolTable.purge depth u b).heads.get b' = u.heads.get b' := by
          rw [hpurge, relink, get_set_ne _ hb, heads_removeAll]
        rw [hhead]
        refine path_congr (fun id hid => ?_) hpath'
        rw [hentry, if_neg (hother id ((hmem' id).mp hid).2.1)]
      · rw [hmem' id, hget]
        by_cases hid : home id = b'
        · rw [if_neg (hother id hid)]
        · simp [hid]

/-- Behind the chains that were gone through, no record of the scope is left in them. -/
theorem foldl_purge (h : Opened t home u) (hat : u.AllAt depth t.nextId)
    (bs : List (Fin chainCount)) :
    Opened t home (bs.foldl (SymbolTable.purge depth) u) ∧
      ∀ id r, t.nextId ≤ id → (bs.foldl (SymbolTable.purge depth) u).get? id = some r →
        home id ∉ bs ∧ u.get? id = some r := by
  induction bs generalizing u with
  | nil => exact ⟨h, fun id r _ hr => ⟨List.not_mem_nil, hr⟩⟩
  | cons b bs ih =>
    obtain ⟨hrest, hleft⟩ :=
      ih (h.purge hchained hbelow hat b) (h.allAt_purge hchained hbelow hat b)
    refine ⟨hrest, fun id r hle hr => ?_⟩
    obtain ⟨hnot, hr⟩ := hleft id r hle hr
    rw [h.get?_purge hchained hbelow hat b] at hr
    split at hr
    · cases hr
    · rename_i hother
      exact ⟨List.not_mem_cons_of_ne_of_not_mem (fun heq => hother ⟨hle, heq⟩) hnot, hr⟩

/-- Once the scope is left, all links and records are those from before it. -/
theorem deleteDepth (h : Opened t home u) (hat : u.AllAt depth t.nextId) (hdepth : 2 ≤ depth) :
    (∀ id, (u.deleteDepth depth).entryAt? id = t.entryAt? id) ∧
      ∀ b, (u.deleteDepth depth).heads.get b = t.heads.get b := by
  obtain ⟨hclosed, hleft⟩ := h.foldl_purge hchained hbelow hat (List.finRange chainCount)
  have hnone : ∀ id r, t.nextId ≤ id → (u.deleteDepth depth).get? id ≠ some r := by
    intro id r hle hr
    rw [SymbolTable.deleteDepth, if_neg (Nat.not_lt_of_le hdepth)] at hr
    exact (hleft id r hle hr).1 (List.mem_finRange _)
  have hdelete : u.deleteDepth depth =
      (List.finRange chainCount).foldl (SymbolTable.purge depth) u := by
    rw [SymbolTable.deleteDepth, if_neg (Nat.not_lt_of_le hdepth)]
  rw [← hdelete] at hclosed
  constructor
  · intro id
    rcases Nat.lt_or_ge id t.nextId with hlt | hge
    · exact hclosed.older id hlt
    · have hold : t.entryAt? id = none := by
        cases he : t.entryAt? id with
        | none => rfl
        | some e => exact absurd (entryAt?_lt t id e he) (Nat.not_lt_of_le hge)
      rw [hold]
      cases he : (u.deleteDepth depth).entryAt? id with
      | none => rfl
      | some e =>
        exact absurd ((get?_eq_some_iff _ id _).mpr ⟨e, he, rfl⟩) (hnone id e.symbol hge)
  · intro b
    obtain ⟨ids, hpath, -, hmem⟩ := hclosed.front b
    have hempty : ids = [] := by
      apply List.eq_nil_iff_forall_not_mem.mpr
      intro id hid
      obtain ⟨hle, -, r, hr⟩ := (hmem id).mp hid
      exact hnone id r hle hr
    subst hempty
    exact hpath

end Leaving

end Opened

/-- Tables with the same links and records find the same. -/
theorem lookup_of_entries {t t' : SymbolTable} (h : t.Chained)
    (hentry : ∀ id, t'.entryAt? id = t.entryAt? id)
    (hhead : ∀ b, t'.heads.get b = t.heads.get b) (name : String) :
    t'.lookup name = t.lookup name := by
  have hget : ∀ id, t'.get? id = t.get? id := fun id => by rw [get?, get?, hentry]
  obtain ⟨ids, hids⟩ := h (chainOf name)
  have hids' : t'.IsChain (chainOf name) ids :=
    hids.congr (hhead _) (fun id _ => by rw [hentry]) fun id => by rw [hget]
  rw [lookup_eq_find hids, lookup_eq_find hids']
  simp only [hget]

/-! ### Numbers -/

theorem nextId_apply_le (t : SymbolTable) (o : Operation) : t.nextId ≤ (o.apply t).nextId := by
  cases o with
  | insert s => exact (nextId_insert t s) ▸ Nat.le_succ _
  | deleteDepth depth => exact Nat.le_of_eq (nextId_deleteDepth t depth).symm
  | update id f _ => exact Nat.le_of_eq (nextId_modify t id f).symm

theorem nextId_le_foldl (t : SymbolTable) (later : List Operation) :
    t.nextId ≤ (later.foldl Operation.apply t).nextId := by
  induction later generalizing t with
  | nil => exact Nat.le_refl _
  | cons o later ih => exact Nat.le_trans (nextId_apply_le t o) (ih (o.apply t))

namespace ScopeStep

variable {depth : Nat} {first : SymbolId} {t : SymbolTable}

/-- The step leaves every record at its depth. -/
def KeepsDepth : ScopeStep depth first → Prop
  | insert _ _ => True
  | update _ _ f => ∀ s, (f s).depth = s.depth

theorem allAt_apply (h : t.AllAt depth first) {o : ScopeStep depth first} (ho : o.KeepsDepth) :
    (o.apply t).AllAt depth first := by
  intro id r hle hr
  cases o with
  | insert s hs =>
    change (t.insert s).get? id = some r at hr
    rw [get?_insert] at hr
    split at hr
    · cases hr
      exact hs
    · exact h id r hle hr
  | update i _ f =>
    change (t.modify i f).get? id = some r at hr
    rw [get?_modify] at hr
    split at hr
    · obtain ⟨q, hq, rfl⟩ := Option.map_eq_some_iff.mp hr
      exact (ho q).trans (h id q hle hq)
    · exact h id r hle hr

/-- Where no record is moved, the records of a scope are all at its depth. -/
theorem allAt_run (h : t.AllAt depth first) {steps : List (ScopeStep depth first)}
    (hsteps : ∀ o ∈ steps, o.KeepsDepth) : (steps.foldl apply t).AllAt depth first := by
  induction steps generalizing t with
  | nil => exact h
  | cons o steps ih =>
    exact ih (allAt_apply h (hsteps o List.mem_cons_self))
      fun o' ho' => hsteps o' (List.mem_cons_of_mem o ho')

end ScopeStep

/-- In a table with nested scopes, leaving a depth removes exactly its records. And where a scope is
opened below all live records and left, whatever was done in it: all older records are as before,
and no number of the scope is given again. It is undone, so that names are found as before and
nothing of it is left, exactly if its records are at its depth by then, and they are if no step moved
one of them. -/
theorem deleteDepth_undoes_scope (history : List Operation) {depth : Nat} (hdepth : 2 ≤ depth) :
    ((after history).Nested → ∀ id r,
      ((after history).deleteDepth depth).get? id = some r ↔
        (after history).get? id = some r ∧ r.depth ≠ depth) ∧
    ((∀ id r, (after history).get? id = some r → r.depth < depth) →
      ∀ steps : List (ScopeStep depth (after history).nextId),
        let inside := steps.foldl ScopeStep.apply (after history)
        let left := inside.deleteDepth depth
        (∀ id < (after history).nextId, left.get? id = (after history).get? id) ∧
        (∀ id r, inside.get? id = some r → left.get? id = none →
          ∀ later : List Operation, (later.foldl Operation.apply left).nextId ≠ id) ∧
        (left.size = (after history).size ↔ inside.AllAt depth (after history).nextId) ∧
        (inside.AllAt depth (after history).nextId →
          (∀ name, left.lookup name = (after history).lookup name) ∧
          ∀ id, left.get? id = (after history).get? id) ∧
        ((∀ o ∈ steps, o.KeepsDepth) → inside.AllAt depth (after history).nextId)) := by
  have hchained := chained_after history
  refine ⟨fun hnested => get?_deleteDepth hchained hnested hdepth, ?_⟩
  intro hbelow steps inside left
  obtain ⟨home, hopened⟩ := (Opened.refl (after history) fun _ => chainOf "").run steps
  have holder : ∀ id < (after history).nextId, left.get? id = (after history).get? id := by
    intro id hid
    have hsame : inside.get? id = (after history).get? id := hopened.get?_older hid
    rw [← hsame]
    refine get?_deleteDepth_of_ne fun r hr => ?_
    exact Nat.ne_of_lt (hbelow id r (hsame.symm.trans hr))
  have hundone : inside.AllAt depth (after history).nextId →
      (∀ name, left.lookup name = (after history).lookup name) ∧
        ∀ id, left.get? id = (after history).get? id := by
    intro hat
    obtain ⟨hentry, hhead⟩ := hopened.deleteDepth hchained hbelow hat hdepth
    exact ⟨lookup_of_entries hchained hentry hhead, fun id => by rw [get?, get?, hentry]⟩
  refine ⟨holder, ?_, ⟨fun hsize id r hle hr => ?_, fun hat => ?_⟩, hundone, fun hsteps => ?_⟩
  · intro id r hr _ later heq
    have hlt : id < left.nextId := by
      rw [nextId_deleteDepth]
      exact get?_lt hr
    have hle := nextId_le_foldl left later
    rw [heq] at hle
    exact Nat.not_lt_of_le hle hlt
  · -- a record that was moved to another depth is one too many
    refine Classical.byContradiction fun hmoved => ?_
    have hstays : left.get? id = some r := by
      rw [← hr]
      refine get?_deleteDepth_of_ne fun q hq => ?_
      cases hr.symm.trans hq
      exact hmoved
    exact Nat.ne_of_lt (size_lt holder hle hstays) hsize.symm
  · have hnext : (after history).nextId ≤ left.nextId := by
      rw [nextId_deleteDepth]
      exact hopened.next_le
    rw [size, size, toList_eq left (Nat.le_refl _), toList_eq (after history) hnext]
    simp only [(hundone hat).2]
  · refine ScopeStep.allAt_run (fun id r hle hr => ?_) hsteps
    exact absurd (get?_lt hr) (Nat.not_lt_of_le hle)

/-- An `x` of a class, one of a method that hides it, and the first one again. -/
theorem deleteDepth_undoes_scope_hidden :
    let field := Symbol.new "x" (.newVar .int) 1
    let inner := Symbol.new "x" (.newVar .float) 2
    let outer := after [.insert field]
    let steps : List (ScopeStep 2 outer.nextId) :=
      [.insert inner rfl, .update 1 (by decide) fun s => { s with offset := -2 }]
    (steps.foldl ScopeStep.apply outer).lookup "x" = some 1 ∧
      ((steps.foldl ScopeStep.apply outer).deleteDepth 2).lookup "x" = some 0 ∧
      ((steps.foldl ScopeStep.apply outer).deleteDepth 2).size = 1 ∧
      ∀ id r, ((after [.insert field, .insert inner]).deleteDepth 2).get? id = some r ↔
        (after [.insert field, .insert inner]).get? id = some r ∧ r.depth ≠ 2 := by
  intro field inner outer steps
  have hget : ∀ id r, outer.get? id = some r → r = field := by
    intro id r hr
    change (empty.insert field).get? id = some r at hr
    rw [get?_insert] at hr
    split at hr
    · exact (Option.some.inj hr).symm
    · rw [get?_empty] at hr
      cases hr
  have hbelow : ∀ id r, outer.get? id = some r → r.depth < 2 := by
    intro id r hr
    rw [hget id r hr]
    decide
  have hkeeps : ∀ o ∈ steps, o.KeepsDepth := by
    intro o ho
    rcases List.mem_cons.mp ho with rfl | ho
    · trivial
    · rw [List.mem_singleton.mp ho]
      exact fun _ => rfl
  obtain ⟨-, -, hsize, hundone, hmoves⟩ :=
    (deleteDepth_undoes_scope [.insert field] (by decide)).2 hbelow steps
  refine ⟨by decide +kernel, ?_, ?_,
    (deleteDepth_undoes_scope _ (by decide)).1 (nested_pair (by decide))⟩
  · rw [(hundone (hmoves hkeeps)).1 "x"]
    decide +kernel
  · rw [hsize.mpr (hmoves hkeeps)]
    decide +kernel

/-- A record that was moved out of the scope stays when the scope is left. -/
theorem deleteDepth_leaves_moved :
    let inner := Symbol.new "x" (.newVar .int) 2
    let steps : List (ScopeStep 2 (after []).nextId) :=
      [.insert inner rfl, .update 0 (by decide) fun s => { s with depth := 1 }]
    let left := (steps.foldl ScopeStep.apply (after [])).deleteDepth 2
    (∀ id r, (after []).get? id = some r → r.depth < 2) ∧
      left.lookup "x" ≠ (after []).lookup "x" ∧ left.size ≠ (after []).size := by
  intro inner steps left
  have hleft : left.lookup "x" = some 0 ∧ left.size = 1 := by decide +kernel
  have hbefore : (after []).lookup "x" = none ∧ (after []).size = 0 := by decide +kernel
  refine ⟨fun id r hr => ?_, ?_, ?_⟩
  · change empty.get? id = some r at hr
    rw [get?_empty] at hr
    cases hr
  · rw [hleft.1, hbefore.1]
    simp
  · rw [hleft.2, hbefore.2]
    decide

end Triad.SymbolTable
