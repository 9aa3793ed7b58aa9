import Triad.SymbolTable

/-!
The chains of the table of records, over every history of it: each chain ends, passes through live
records only, the newest first, and through all of those whose names belong to it. So a lookup finds
the newest live record of a name.

`Path` is what the links say, `IsChain` what a chain is to be. The walks over a chain are first
rewritten as functions of the list of its records (`passDeeper_head`, `removeRun_head`,
`lookup_eq_find`), and all else is said of such lists.
-/

namespace Triad.SymbolTable

/-! ## Entries after each change -/

theorem get?_eq_some_iff (t : SymbolTable) (id : SymbolId) (s : Symbol) :
    t.get? id = some s ↔ ∃ e, t.entryAt? id = some e ∧ e.symbol = s := by
  simp [get?]

theorem entryAt?_lt (t : SymbolTable) (id : SymbolId) (e : Entry) (h : t.entryAt? id = some e) :
    id < t.nextId := by
  unfold entryAt? at h
  apply Nat.lt_of_not_le
  intro hle
  rw [Array.getElem?_eq_none hle] at h
  cases h

theorem get?_lt {t : SymbolTable} {id : SymbolId} {s : Symbol} (h : t.get? id = some s) :
    id < t.nextId := by
  obtain ⟨e, he, _⟩ := (get?_eq_some_iff t id s).mp h
  exact entryAt?_lt t id e he

theorem entryAt?_empty (id : SymbolId) : empty.entryAt? id = none := by
  simp [empty, entryAt?]

theorem get?_empty (id : SymbolId) : empty.get? id = none := by
  rw [get?, entryAt?_empty]
  rfl

theorem entryAt?_insert (t : SymbolTable) (s : Symbol) (id : SymbolId) :
    (t.insert s).entryAt? id =
      if id = t.nextId then some ⟨s, t.heads.get (chainOf s.name)⟩ else t.entryAt? id := by
  unfold entryAt? insert nextId
  rw [Array.getElem?_push]
  split <;> rfl

theorem entryAt?_modify (t : SymbolTable) (f : Symbol → Symbol) (id id' : SymbolId) :
    (t.modify id f).entryAt? id' =
      if id' = id then (t.entryAt? id').map fun e => { e with symbol := f e.symbol }
      else t.entryAt? id' := by
  unfold entryAt? modify
  rw [Array.getElem?_modify]
  by_cases h : id' = id
  · subst h
    cases t.arena[id']? with
    | none => simp
    | some e => simp
  · simp [h, Ne.symm h]

theorem entryAt?_remove (t : SymbolTable) (id id' : SymbolId) :
    (t.remove id).entryAt? id' = if id' = id then none else t.entryAt? id' := by
  unfold entryAt? remove
  rw [Array.getElem?_setIfInBounds]
  by_cases h : id' = id
  · subst h
    simp
    split <;> rfl
  · simp [h, Ne.symm h]

theorem entryAt?_relink_none (t : SymbolTable) (b : Fin chainCount) (place : Option SymbolId)
    (id : SymbolId) : (t.relink b none place).entryAt? id = t.entryAt? id := rfl

theorem entryAt?_relink_some (t : SymbolTable) (b : Fin chainCount) (last : SymbolId)
    (place : Option SymbolId) (id : SymbolId) :
    (t.relink b (some last) place).entryAt? id =
      if id = last then (t.entryAt? id).map fun e => { e with next := place }
      else t.entryAt? id := by
  unfold entryAt? relink
  rw [Array.getElem?_modify]
  by_cases h : id = last
  · subst h
    cases t.arena[id]? with
    | none => simp
    | some e => simp
  · simp [h, Ne.symm h]

theorem get_set_self (heads : Vector (Option SymbolId) chainCount) (b : Fin chainCount)
    (place : Option SymbolId) : (heads.set b place b.isLt).get b = place :=
  Vector.getElem_set_self b.isLt

theorem get_set_ne (heads : Vector (Option SymbolId) chainCount) {b b' : Fin chainCount}
    (h : b' ≠ b) (place : Option SymbolId) : (heads.set b place b.isLt).get b' = heads.get b' :=
  Vector.getElem_set_ne b.isLt b'.isLt fun heq => h (Fin.ext heq.symm)

@[simp] theorem nextId_insert (t : SymbolTable) (s : Symbol) :
    (t.insert s).nextId = t.nextId + 1 := by
  simp [insert, nextId]

@[simp] theorem nextId_modify (t : SymbolTable) (id : SymbolId) (f : Symbol → Symbol) :
    (t.modify id f).nextId = t.nextId := by
  simp [modify, nextId]

theorem get?_insert (t : SymbolTable) (s : Symbol) (id : SymbolId) :
    (t.insert s).get? id = if id = t.nextId then some s else t.get? id := by
  unfold get?
  rw [entryAt?_insert]
  split <;> rfl

theorem get?_modify (t : SymbolTable) (f : Symbol → Symbol) (id id' : SymbolId) :
    (t.modify id f).get? id' = if id' = id then (t.get? id').map f else t.get? id' := by
  unfold get?
  rw [entryAt?_modify]
  split
  · cases t.entryAt? id' <;> rfl
  · rfl

theorem get?_relink (t : SymbolTable) (b : Fin chainCount) (last place : Option SymbolId)
    (id : SymbolId) : (t.relink b last place).get? id = t.get? id := by
  cases last with
  | none => rfl
  | some last =>
    unfold get?
    rw [entryAt?_relink_some]
    split
    · cases t.entryAt? id <;> rfl
    · rfl

/-! ## Paths along the links -/

/-- The records passed on the way from one place of a chain to another, all of them live. -/
def Path (t : SymbolTable) : Option SymbolId → List SymbolId → Option SymbolId → Prop
  | start, [], stop => start = stop
  | start, id :: ids, stop =>
    start = some id ∧ ∃ e, t.entryAt? id = some e ∧ t.Path e.next ids stop

theorem path_append {t : SymbolTable} {start stop : Option SymbolId} (xs ys : List SymbolId) :
    t.Path start (xs ++ ys) stop ↔ ∃ mid, t.Path start xs mid ∧ t.Path mid ys stop := by
  induction xs generalizing start with
  | nil => simp [Path]
  | cons id xs ih =>
    simp only [List.cons_append, Path, ih]
    constructor
    · rintro ⟨hs, e, he, mid, hx, hy⟩
      exact ⟨mid, ⟨hs, e, he, hx⟩, hy⟩
    · rintro ⟨mid, ⟨hs, e, he, hx⟩, hy⟩
      exact ⟨hs, e, he, mid, hx, hy⟩

/-- A path to the end of a chain starts at its first record. -/
theorem path_start {t : SymbolTable} {start : Option SymbolId} {ids : List SymbolId}
    (h : t.Path start ids none) : start = ids.head? := by
  cases ids with
  | nil => exact h
  | cons id ids => exact h.1

theorem path_live {t : SymbolTable} {start stop : Option SymbolId} {ids : List SymbolId}
    (h : t.Path start ids stop) : ∀ id ∈ ids, ∃ s, t.get? id = some s := by
  induction ids generalizing start with
  | nil => simp
  | cons i ids ih =>
    obtain ⟨_, e, he, hp⟩ := h
    intro id hid
    rcases List.mem_cons.mp hid with rfl | hid
    · exact ⟨e.symbol, (get?_eq_some_iff t _ _).mpr ⟨e, he, rfl⟩⟩
    · exact ih hp id hid

private theorem length_le_of_lt {ids : List SymbolId} (h : ids.Pairwise (· > ·)) (n : Nat)
    (hlt : ∀ id ∈ ids, id < n) : ids.length ≤ n := by
  induction ids generalizing n with
  | nil => exact Nat.zero_le n
  | cons id ids ih =>
    obtain ⟨hid, hrest⟩ := List.pairwise_cons.mp h
    exact Nat.lt_of_le_of_lt (ih hrest id hid) (hlt id (List.mem_cons_self ..))

/-- No path with the newest record first is longer than the arena, so no walk along it is cut
short. -/
theorem path_length_le {t : SymbolTable} {start stop : Option SymbolId} {ids : List SymbolId}
    (h : t.Path start ids stop) (hsorted : ids.Pairwise (· > ·)) : ids.length ≤ t.nextId := by
  refine length_le_of_lt hsorted _ fun id hid => ?_
  obtain ⟨s, hs⟩ := path_live h id hid
  exact get?_lt hs

/-- A path depends on the links of its own records only. -/
theorem path_congr {t t' : SymbolTable} {start stop : Option SymbolId} {ids : List SymbolId}
    (hsame : ∀ id ∈ ids, (t'.entryAt? id).map Entry.next = (t.entryAt? id).map Entry.next)
    (h : t.Path start ids stop) : t'.Path start ids stop := by
  induction ids generalizing start with
  | nil => exact h
  | cons id ids ih =>
    obtain ⟨hs, e, he, hp⟩ := h
    have hid := hsame id (List.mem_cons_self ..)
    rw [he] at hid
    obtain ⟨e', he', hn⟩ := Option.map_eq_some_iff.mp hid
    refine ⟨hs, e', he', ?_⟩
    rw [hn]
    exact ih (fun i hi => hsame i (List.mem_cons_of_mem _ hi)) hp

/-- The last record of a path may be linked to another place. -/
theorem path_relink {t : SymbolTable} {start stop place : Option SymbolId} {b : Fin chainCount}
    {last : SymbolId} {ids : List SymbolId} (hnot : last ∉ ids)
    (h : t.Path start (ids ++ [last]) stop) :
    (t.relink b (some last) place).Path start (ids ++ [last]) place := by
  obtain ⟨mid, hp, hm, e, he, _⟩ := (path_append ids [last]).mp h
  refine (path_append ids [last]).mpr ⟨mid, path_congr ?_ hp, hm, { e with next := place }, ?_, rfl⟩
  · intro id hid
    have hne : id ≠ last := fun heq => hnot (heq ▸ hid)
    rw [entryAt?_relink_some, if_neg hne]
  · rw [entryAt?_relink_some, if_pos rfl, he]
    rfl

/-! ## Walks as functions of the list of records -/

def isDeeper (t : SymbolTable) (depth : Nat) (id : SymbolId) : Bool :=
  (t.get? id).any fun s => decide (depth < s.depth)

def isAt (t : SymbolTable) (depth : Nat) (id : SymbolId) : Bool :=
  (t.get? id).any fun s => s.depth == depth

/-- The records of a chain that stand in front of those that leaving `depth` removes. -/
def passed (t : SymbolTable) (depth : Nat) (ids : List SymbolId) : List SymbolId :=
  ids.takeWhile (t.isDeeper depth)

/-- The records of a chain that leaving `depth` removes. -/
def expired (t : SymbolTable) (depth : Nat) (ids : List SymbolId) : List SymbolId :=
  (ids.dropWhile (t.isDeeper depth)).takeWhile (t.isAt depth)

/-- The records of a chain behind those that leaving `depth` removes. -/
def kept (t : SymbolTable) (depth : Nat) (ids : List SymbolId) : List SymbolId :=
  (ids.dropWhile (t.isDeeper depth)).dropWhile (t.isAt depth)

theorem passed_expired_kept (t : SymbolTable) (depth : Nat) (ids : List SymbolId) :
    t.passed depth ids ++ (t.expired depth ids ++ t.kept depth ids) = ids := by
  unfold passed expired kept
  rw [List.takeWhile_append_dropWhile, List.takeWhile_append_dropWhile]

theorem findWithin_head {t : SymbolTable} {ids : List SymbolId} (name : String) (n : Nat)
    (hn : ids.length ≤ n) (h : t.Path ids.head? ids none) :
    t.findWithin name n ids.head? =
      ids.find? fun id => (t.get? id).any fun s => s.name == name := by
  induction ids generalizing n with
  | nil => cases n <;> rfl
  | cons id ids ih =>
    obtain ⟨_, e, he, hp⟩ := h
    have hnext := path_start hp
    cases n with
    | zero => simp at hn
    | succ n =>
      have hg : t.get? id = some e.symbol := (get?_eq_some_iff t id _).mpr ⟨e, he, rfl⟩
      rw [hnext] at hp
      simp only [List.head?_cons, findWithin, he, List.find?_cons, hg, Option.any_some]
      cases hname : e.symbol.name == name with
      | true => rfl
      | false =>
        rw [hnext]
        exact ih n (by simpa using hn) hp

theorem passDeeper_head {t : SymbolTable} {ids : List SymbolId} (depth n : Nat)
    (last : Option SymbolId) (hn : ids.length ≤ n) (h : t.Path ids.head? ids none) :
    t.passDeeper depth n last ids.head? =
      ((t.passed depth ids).getLast?.or last, (ids.dropWhile (t.isDeeper depth)).head?) := by
  induction ids generalizing n last with
  | nil => cases n <;> rfl
  | cons id ids ih =>
    obtain ⟨_, e, he, hp⟩ := h
    have hnext := path_start hp
    cases n with
    | zero => simp at hn
    | succ n =>
      have hg : t.get? id = some e.symbol := (get?_eq_some_iff t id _).mpr ⟨e, he, rfl⟩
      have hd : t.isDeeper depth id = decide (depth < e.symbol.depth) := by simp [isDeeper, hg]
      rw [hnext] at hp
      simp only [List.head?_cons, passDeeper, he]
      by_cases hdeep : depth < e.symbol.depth
      · rw [if_pos hdeep, hnext, ih n (some id) (by simpa using hn) hp]
        simp only [passed, List.takeWhile_cons, List.dropWhile_cons, hd, hdeep, decide_true,
          ↓reduceIte, List.getLast?_cons, Option.or_some]
        cases (List.takeWhile (t.isDeeper depth) ids).getLast? <;> rfl
      · rw [if_neg hdeep]
        simp [passed, hd, hdeep]

def removeAll (t : SymbolTable) (ids : List SymbolId) : SymbolTable := ids.foldl remove t

theorem entryAt?_removeAll (t : SymbolTable) (ids : List SymbolId) (id : SymbolId) :
    (t.removeAll ids).entryAt? id = if id ∈ ids then none else t.entryAt? id := by
  induction ids generalizing t with
  | nil => simp [removeAll]
  | cons i ids ih =>
    have hi := ih (t.remove i)
    rw [show t.removeAll (i :: ids) = (t.remove i).removeAll ids from rfl, hi, entryAt?_remove]
    by_cases hid : id = i
    · simp [hid]
    · simp [hid]

theorem get?_removeAll (t : SymbolTable) (ids : List SymbolId) (id : SymbolId) :
    (t.removeAll ids).get? id = if id ∈ ids then none else t.get? id := by
  unfold get?
  rw [entryAt?_removeAll]
  split <;> rfl

theorem heads_removeAll (t : SymbolTable) (ids : List SymbolId) :
    (t.removeAll ids).heads = t.heads := by
  induction ids generalizing t with
  | nil => rfl
  | cons i ids ih => exact ih (t.remove i)

theorem while_congr {p q : SymbolId → Bool} {ids : List SymbolId}
    (h : ∀ id ∈ ids, p id = q id) :
    ids.takeWhile p = ids.takeWhile q ∧ ids.dropWhile p = ids.dropWhile q := by
  induction ids with
  | nil => exact ⟨rfl, rfl⟩
  | cons id ids ih =>
    obtain ⟨ht, hd⟩ := ih fun i hi => h i (List.mem_cons_of_mem _ hi)
    rw [List.takeWhile_cons, List.takeWhile_cons, List.dropWhile_cons, List.dropWhile_cons,
      h id (List.mem_cons_self ..), ht, hd]
    exact ⟨rfl, rfl⟩

theorem removeRun_head {t : SymbolTable} {ids : List SymbolId} (depth n : Nat)
    (hn : ids.length ≤ n) (hnodup : ids.Nodup) (h : t.Path ids.head? ids none) :
    removeRun depth n t ids.head? =
      (t.removeAll (ids.takeWhile (t.isAt depth)), (ids.dropWhile (t.isAt depth)).head?) := by
  induction ids generalizing t n with
  | nil => cases n <;> rfl
  | cons id ids ih =>
    obtain ⟨_, e, he, hp⟩ := h
    have hnext := path_start hp
    obtain ⟨hnot, hnodup⟩ := List.nodup_cons.mp hnodup
    cases n with
    | zero => simp at hn
    | succ n =>
      have hg : t.get? id = some e.symbol := (get?_eq_some_iff t id _).mpr ⟨e, he, rfl⟩
      have ha : t.isAt depth id = (e.symbol.depth == depth) := by simp [isAt, hg]
      rw [hnext] at hp
      simp only [List.head?_cons, removeRun, he]
      by_cases hat : e.symbol.depth = depth
      · -- The records behind are the same without this one, so the walk goes on as before.
        have hsame : ∀ i ∈ ids, (t.remove id).entryAt? i = t.entryAt? i := by
          intro i hi
          have hne : i ≠ id := fun heq => hnot (heq ▸ hi)
          rw [entryAt?_remove, if_neg hne]
        have hrun : ∀ i ∈ ids, (t.remove id).isAt depth i = t.isAt depth i := by
          intro i hi
          simp only [isAt, get?, hsame i hi]
        have hp' := path_congr (fun i hi => by rw [hsame i hi]) hp
        rw [if_pos hat, hnext, ih n (by simpa using hn) hnodup hp']
        simp only [List.takeWhile_cons, List.dropWhile_cons, ha, hat, beq_self_eq_true, ↓reduceIte]
        rw [(while_congr hrun).1, (while_congr hrun).2]
        rfl
      · rw [if_neg hat]
        simp [ha, hat, removeAll]

/-! ## Chains -/

/-- From its head to its end a chain passes through `ids`: the live records whose names belong to
it, the newest first. -/
structure IsChain (t : SymbolTable) (b : Fin chainCount) (ids : List SymbolId) : Prop where
  path : t.Path (t.heads.get b) ids none
  newest_first : ids.Pairwise (· > ·)
  mem_iff : ∀ id, id ∈ ids ↔ ∃ s, t.get? id = some s ∧ chainOf s.name = b

/-- Every chain of the table is as it is to be. -/
def Chained (t : SymbolTable) : Prop := ∀ b, ∃ ids, t.IsChain b ids

namespace IsChain

variable {t : SymbolTable} {b : Fin chainCount} {ids : List SymbolId}

theorem head (h : t.IsChain b ids) : t.heads.get b = ids.head? := path_start h.path

theorem path_head (h : t.IsChain b ids) : t.Path ids.head? ids none := h.head ▸ h.path

theorem nodup (h : t.IsChain b ids) : ids.Nodup :=
  h.newest_first.imp fun hlt => Nat.ne_of_gt hlt

theorem length_le (h : t.IsChain b ids) : ids.length ≤ t.nextId :=
  path_length_le h.path h.newest_first

/-- A table that has the links and the records of a chain has the chain. -/
theorem congr {t' : SymbolTable} (h : t.IsChain b ids) (hhead : t'.heads.get b = t.heads.get b)
    (hnext : ∀ id ∈ ids, (t'.entryAt? id).map Entry.next = (t.entryAt? id).map Entry.next)
    (hname : ∀ id, (∃ s, t'.get? id = some s ∧ chainOf s.name = b) ↔
      ∃ s, t.get? id = some s ∧ chainOf s.name = b) : t'.IsChain b ids where
  path := by
    rw [hhead]
    exact path_congr hnext h.path
  newest_first := h.newest_first
  mem_iff := by
    intro id
    rw [hname id]
    exact h.mem_iff id

end IsChain

/-! ### Lookups -/

theorem lookup_eq_find {t : SymbolTable} {ids : List SymbolId} {name : String}
    (h : t.IsChain (chainOf name) ids) :
    t.lookup name = ids.find? fun id => (t.get? id).any fun s => s.name == name := by
  unfold lookup
  rw [h.head]
  exact findWithin_head name t.nextId h.length_le h.path_head

theorem lookup_eq_some_iff {t : SymbolTable} (h : t.Chained) (name : String) (id : SymbolId) :
    t.lookup name = some id ↔
      (∃ s, t.get? id = some s ∧ s.name = name) ∧
        ∀ id' s', t.get? id' = some s' → s'.name = name → id' ≤ id := by
  obtain ⟨ids, hids⟩ := h (chainOf name)
  rw [lookup_eq_find hids, List.find?_eq_some_iff_append]
  constructor
  · rintro ⟨hp, as, bs, heq, has⟩
    have hs : ∃ s, t.get? id = some s ∧ s.name = name := by
      cases hg : t.get? id with
      | none => simp [hg] at hp
      | some s => exact ⟨s, rfl, by simpa [hg] using hp⟩
    refine ⟨hs, fun id' s' hg' hname => ?_⟩
    have hmem : id' ∈ ids := (hids.mem_iff id').mpr ⟨s', hg', by rw [hname]⟩
    rw [heq] at hmem
    rcases List.mem_append.mp hmem with ha | hb
    · have := has id' ha
      simp [hg', hname] at this
    · rcases List.mem_cons.mp hb with rfl | hb
      · exact Nat.le_refl _
      · have hsorted := hids.newest_first
        rw [heq] at hsorted
        have := (List.pairwise_append.mp hsorted).2.1
        exact Nat.le_of_lt ((List.pairwise_cons.mp this).1 id' hb)
  · rintro ⟨⟨s, hg, hname⟩, hmax⟩
    have hmem : id ∈ ids := (hids.mem_iff id).mpr ⟨s, hg, by rw [hname]⟩
    obtain ⟨as, bs, heq⟩ := List.append_of_mem hmem
    refine ⟨by simp [hg, hname], as, bs, heq, fun id' ha => ?_⟩
    have hsorted := hids.newest_first
    rw [heq] at hsorted
    have hlt : id' > id := (List.pairwise_append.mp hsorted).2.2 id' ha id (List.mem_cons_self ..)
    cases hg' : t.get? id' with
    | none => simp
    | some s' =>
      have hne : s'.name ≠ name := fun heq => Nat.not_lt_of_le (hmax id' s' hg' heq) hlt
      simp [hne]

theorem lookup_eq_none_iff {t : SymbolTable} (h : t.Chained) (name : String) :
    t.lookup name = none ↔ ∀ id s, t.get? id = some s → s.name ≠ name := by
  obtain ⟨ids, hids⟩ := h (chainOf name)
  rw [lookup_eq_find hids, List.find?_eq_none]
  constructor
  · intro hnone id s hg hname
    have hmem : id ∈ ids := (hids.mem_iff id).mpr ⟨s, hg, by rw [hname]⟩
    have := hnone id hmem
    simp [hg, hname] at this
  · intro hnone id hid
    cases hg : t.get? id with
    | none => simp
    | some s => simpa using hnone id s hg

/-! ### What each change does to the chains -/

theorem chained_empty : empty.Chained := by
  intro b
  refine ⟨[], ?_, List.Pairwise.nil, fun id => ?_⟩
  · simp [empty, Path, Vector.get]
  · simp [get?, entryAt?_empty]

theorem chained_insert {t : SymbolTable} (h : t.Chained) (s : Symbol) :
    (t.insert s).Chained := by
  intro b
  obtain ⟨ids, hids⟩ := h b
  have hold : ∀ id ∈ ids, (t.insert s).entryAt? id = t.entryAt? id := by
    intro id hid
    obtain ⟨s', hs', _⟩ := (hids.mem_iff id).mp hid
    rw [entryAt?_insert, if_neg (Nat.ne_of_lt (get?_lt hs'))]
  by_cases hb : b = chainOf s.name
  · -- The new record stands in front of all others of its chain.
    refine ⟨t.nextId :: ids, ?_, ?_, fun id => ?_⟩
    · refine ⟨?_, ⟨s, t.heads.get (chainOf s.name)⟩, ?_, ?_⟩
      · rw [hb, insert, get_set_self]
      · rw [entryAt?_insert, if_pos rfl]
      · rw [← hb]
        exact path_congr (fun id hid => by rw [hold id hid]) hids.path
    · refine List.pairwise_cons.mpr ⟨fun id hid => ?_, hids.newest_first⟩
      obtain ⟨s', hs', _⟩ := (hids.mem_iff id).mp hid
      exact get?_lt hs'
    · rw [List.mem_cons, get?_insert]
      by_cases hid : id = t.nextId
      · simp [hid, hb]
      · simp [hid, hids.mem_iff id]
  · refine ⟨ids, hids.congr ?_ (fun id hid => by rw [hold id hid]) fun id => ?_⟩
    · rw [insert, get_set_ne _ hb]
    · rw [get?_insert]
      by_cases hid : id = t.nextId
      · subst hid
        have hnone : t.get? t.nextId = none := by
          cases hg : t.get? t.nextId with
          | none => rfl
          | some s' => exact absurd (get?_lt hg) (Nat.lt_irrefl _)
        simp [hnone, Ne.symm hb]
      · simp [hid]

theorem chained_modify {t : SymbolTable} (h : t.Chained) (id : SymbolId) (f : Symbol → Symbol)
    (hname : ∀ s, (f s).name = s.name) : (t.modify id f).Chained := by
  intro b
  obtain ⟨ids, hids⟩ := h b
  refine ⟨ids, hids.congr rfl (fun i _ => ?_) fun i => ?_⟩
  · rw [entryAt?_modify]
    split
    · cases t.entryAt? i <;> rfl
    · rfl
  · rw [get?_modify]
    split
    · cases t.get? i <;> simp [hname]
    · rfl

/-- A chain without its expired records, with all other records and chains as they were. -/
theorem purge_eq {t : SymbolTable} {b : Fin chainCount} {ids : List SymbolId} (depth : Nat)
    (hpath : t.Path (t.heads.get b) ids none) (hsorted : ids.Pairwise (· > ·)) :
    purge depth t b = (t.removeAll (t.expired depth ids)).relink b (t.passed depth ids).getLast?
      (t.kept depth ids).head? := by
  have hsplit := passed_expired_kept t depth ids
  have hdrop : ids.dropWhile (t.isDeeper depth) = t.expired depth ids ++ t.kept depth ids :=
    (List.takeWhile_append_dropWhile ..).symm
  have hnodup : ids.Nodup := hsorted.imp fun hlt => Nat.ne_of_gt hlt
  have hlen := path_length_le hpath hsorted
  have hhead := path_start hpath
  obtain ⟨mid, _, hmid⟩ := (path_append (t.passed depth ids) _).mp (hsplit.symm ▸ hpath)
  rw [path_start hmid] at hmid
  have hpass := passDeeper_head depth t.nextId none hlen (hhead ▸ hpath)
  have hrun := removeRun_head depth t.nextId
    (Nat.le_trans (List.dropWhile_sublist _).length_le hlen)
    (hnodup.sublist (List.dropWhile_sublist _)) (hdrop ▸ hmid)
  unfold purge
  rw [hhead, hpass]
  dsimp only
  rw [hrun, Option.or_none]
  rfl

theorem get?_purge {t : SymbolTable} {b : Fin chainCount} {ids : List SymbolId} (depth : Nat)
    (h : t.IsChain b ids) (id : SymbolId) :
    (purge depth t b).get? id = if id ∈ t.expired depth ids then none else t.get? id := by
  rw [purge_eq depth h.path h.newest_first, get?_relink, get?_removeAll]

theorem mem_passed_kept {t : SymbolTable} {b : Fin chainCount} {ids : List SymbolId}
    (depth : Nat) (h : t.IsChain b ids) (id : SymbolId) :
    id ∈ t.passed depth ids ++ t.kept depth ids ↔ id ∈ ids ∧ id ∉ t.expired depth ids := by
  have hnodup := h.nodup
  have hsplit := passed_expired_kept t depth ids
  have hmem : id ∈ ids ↔ id ∈ t.passed depth ids ∨ id ∈ t.expired depth ids ∨
      id ∈ t.kept depth ids := by
    rw [← List.mem_append, ← List.mem_append, hsplit]
  rw [← hsplit] at hnodup
  obtain ⟨_, hek, hpe⟩ := List.nodup_append.mp hnodup
  obtain ⟨_, _, hke⟩ := List.nodup_append.mp hek
  rw [hmem, List.mem_append]
  constructor
  · rintro (hp | hk)
    · exact ⟨.inl hp, fun he => hpe id hp id (List.mem_append_left _ he) rfl⟩
    · exact ⟨.inr (.inr hk), fun he => hke id he id hk rfl⟩
  · rintro ⟨hp | he | hk, hnot⟩
    · exact .inl hp
    · exact absurd he hnot
    · exact .inr hk

theorem isChain_purge {t : SymbolTable} {b : Fin chainCount} {ids : List SymbolId} (depth : Nat)
    (h : t.IsChain b ids) :
    (purge depth t b).IsChain b (t.passed depth ids ++ t.kept depth ids) where
  path := by
    have hnot := fun id => (mem_passed_kept depth h id).mp
    have hsorted := h.newest_first
    have hpath := h.path
    rw [← passed_expired_kept t depth ids] at hpath hsorted
    obtain ⟨mid, hpass, hrest⟩ := (path_append _ _).mp hpath
    obtain ⟨mid', _, hkept⟩ := (path_append _ _).mp hrest
    rw [path_start hkept] at hkept
    -- Removing the expired records leaves both ends of the chain as they are.
    have hsame : ∀ id ∈ t.passed depth ids ++ t.kept depth ids,
        (t.removeAll (t.expired depth ids)).entryAt? id = t.entryAt? id := by
      intro id hid
      rw [entryAt?_removeAll, if_neg (hnot id hid).2]
    have hpass' := path_congr (fun id hid => by rw [hsame id (List.mem_append_left _ hid)]) hpass
    have hkept' := path_congr (fun id hid => by rw [hsame id (List.mem_append_right _ hid)]) hkept
    rw [purge_eq depth h.path h.newest_first]
    rcases List.eq_nil_or_concat (t.passed depth ids) with hnil | ⟨xs, last, hcat⟩
    · rw [hnil]
      refine path_congr (t := t.removeAll (t.expired depth ids)) (fun _ _ => rfl) ?_
      simpa [relink, get_set_self] using hkept'
    · rw [List.concat_eq_append] at hcat
      rw [hcat] at hpass' hsorted ⊢
      rw [List.getLast?_concat]
      have hlast : last ∉ xs := by
        have hnodup := (List.pairwise_append.mp hsorted).1.imp (S := (· ≠ ·)) Nat.ne_of_gt
        exact fun hmem =>
          (List.pairwise_append.mp hnodup).2.2 last hmem last (List.mem_cons_self ..) rfl
      refine (path_append _ _).mpr ⟨_, ?_, path_congr (fun id hid => ?_) hkept'⟩
      · rw [← heads_removeAll t (t.expired depth ids)] at hpass'
        exact path_relink hlast hpass'
      · have hgt : last > id := (List.pairwise_append.mp hsorted).2.2 last (by simp) id
          (List.mem_append_right _ hid)
        rw [entryAt?_relink_some, if_neg (Nat.ne_of_lt hgt)]
  newest_first := by
    have hsorted := h.newest_first
    rw [← passed_expired_kept t depth ids] at hsorted
    exact hsorted.sublist (List.Sublist.append_left (List.sublist_append_right _ _) _)
  mem_iff := by
    intro id
    rw [mem_passed_kept depth h, h.mem_iff, get?_purge depth h]
    by_cases he : id ∈ t.expired depth ids
    · simp [he]
    · simp [he]

theorem mem_of_mem_expired {t : SymbolTable} {depth : Nat} {ids : List SymbolId} {id : SymbolId}
    (h : id ∈ t.expired depth ids) : id ∈ ids := by
  rw [← passed_expired_kept t depth ids]
  exact List.mem_append_right _ (List.mem_append_left _ h)

/-- A record belongs to one chain. -/
theorem IsChain.not_mem_other {t : SymbolTable} {b b' : Fin chainCount} {ids ids' : List SymbolId}
    (h : t.IsChain b ids) (h' : t.IsChain b' ids') (hne : b' ≠ b) {id : SymbolId}
    (hid' : id ∈ ids') : id ∉ ids := by
  intro hid
  obtain ⟨s', hs', hb'⟩ := (h'.mem_iff id).mp hid'
  obtain ⟨s, hs, hb⟩ := (h.mem_iff id).mp hid
  rw [hs'] at hs
  cases hs
  exact hne (hb'.symm.trans hb)

theorem isChain_purge_other {t : SymbolTable} {b b' : Fin chainCount} {ids ids' : List SymbolId}
    (depth : Nat) (h : t.IsChain b ids) (hne : b' ≠ b) (h' : t.IsChain b' ids') :
    (purge depth t b).IsChain b' ids' := by
  have hsub : ∀ id ∈ ids', id ∉ ids := fun id hid' => h.not_mem_other h' hne hid'
  have hin : ∀ id ∈ t.expired depth ids, id ∈ ids := fun id => mem_of_mem_expired
  rw [purge_eq depth h.path h.newest_first]
  refine h'.congr ?_ (fun id hid => ?_) fun id => ?_
  · cases (t.passed depth ids).getLast? with
    | none =>
      rw [relink, get_set_ne _ hne, heads_removeAll]
    | some last => rw [relink, heads_removeAll]
  · have hentry : (t.removeAll (t.expired depth ids)).entryAt? id = t.entryAt? id := by
      rw [entryAt?_removeAll, if_neg fun he => hsub id hid (hin id he)]
    cases hlast : (t.passed depth ids).getLast? with
    | none => rw [entryAt?_relink_none, hentry]
    | some last =>
      have hmem : last ∈ ids := by
        rw [← passed_expired_kept t depth ids]
        exact List.mem_append_left _ (List.mem_of_getLast? hlast)
      have hne' : id ≠ last := fun heq => hsub id hid (heq ▸ hmem)
      rw [entryAt?_relink_some, if_neg hne', hentry]
  · rw [get?_relink, get?_removeAll]
    by_cases he : id ∈ t.expired depth ids
    · -- An expired record belongs to the other chain.
      obtain ⟨s, hs, hb⟩ := (h.mem_iff id).mp (hin id he)
      simp [he, hs, hb, hne.symm]
    · simp [he]

theorem chained_purge {t : SymbolTable} (h : t.Chained) (depth : Nat) (b : Fin chainCount) :
    (purge depth t b).Chained := by
  obtain ⟨ids, hids⟩ := h b
  intro b'
  by_cases hb : b' = b
  · subst hb
    exact ⟨_, isChain_purge depth hids⟩
  · obtain ⟨ids', hids'⟩ := h b'
    exact ⟨ids', isChain_purge_other depth hids hb hids'⟩

theorem chained_deleteDepth {t : SymbolTable} (h : t.Chained) (depth : Nat) :
    (t.deleteDepth depth).Chained := by
  unfold deleteDepth
  split
  · exact h
  · generalize List.finRange chainCount = bs
    induction bs generalizing t with
    | nil => exact h
    | cons b bs ih => exact ih (chained_purge h depth b)

/-! ## Any history of a table -/

/-- What can be done to a table. An update may change all of a record but its name. -/
inductive Operation
  | insert (s : Symbol)
  | deleteDepth (depth : Nat)
  | update (id : SymbolId) (f : Symbol → Symbol) (keepsName : ∀ s, (f s).name = s.name)

def Operation.apply (t : SymbolTable) : Operation → SymbolTable
  | insert s => t.insert s
  | deleteDepth depth => t.deleteDepth depth
  | update id f _ => t.modify id f

/-- The table after the operations, from the empty one on. -/
def after (history : List Operation) : SymbolTable := history.foldl Operation.apply empty

theorem chained_apply {t : SymbolTable} (h : t.Chained) (o : Operation) : (o.apply t).Chained := by
  cases o with
  | insert s => exact chained_insert h s
  | deleteDepth depth => exact chained_deleteDepth h depth
  | update id f hname => exact chained_modify h id f hname

theorem chained_after (history : List Operation) : (after history).Chained := by
  have hrun : ∀ t : SymbolTable, t.Chained → (history.foldl Operation.apply t).Chained := by
    induction history with
    | nil => exact fun _ h => h
    | cons o history ih => exact fun t h => ih (o.apply t) (chained_apply h o)
  exact hrun empty chained_empty

/-- After any history the links of every chain lead from its head through live records to its end,
the newest record first, and through exactly those whose names belong to the chain; and a lookup
gives the newest live record of the name, and nothing where there is none. -/
theorem chains_hold_live_records (history : List Operation) :
    (∀ b, ∃ ids, (after history).Path ((after history).heads.get b) ids none ∧
      ids.Pairwise (· > ·) ∧
      ∀ id, id ∈ ids ↔ ∃ s, (after history).get? id = some s ∧ chainOf s.name = b) ∧
    (∀ name id, (after history).lookup name = some id ↔
      (∃ s, (after history).get? id = some s ∧ s.name = name) ∧
        ∀ id' s', (after history).get? id' = some s' → s'.name = name → id' ≤ id) ∧
    ∀ name, (after history).lookup name = none ↔
      ∀ id s, (after history).get? id = some s → s.name ≠ name := by
  have h := chained_after history
  refine ⟨fun b => ?_, lookup_eq_some_iff h, lookup_eq_none_iff h⟩
  obtain ⟨ids, hids⟩ := h b
  exact ⟨ids, hids.path, hids.newest_first, hids.mem_iff⟩

end Triad.SymbolTable
