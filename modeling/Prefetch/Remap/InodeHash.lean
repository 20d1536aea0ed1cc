/-
# Prefetch.Remap.InodeHash — the inodes of e2remapblocks, and how they are found

e2remapblocks keeps its inodes in one array, and finds them by their numbers in chains that begin in
`inode_hash` and go on through `next`. When the array is full, `create_new_inode` makes it longer by
`INODE_ALLOC_ENTRIES`, and `realloc` is free to move it. The addresses in the chains are left as they are, and
`inode_hash` itself is not cleared when it is allocated.

An extent comes to its inode unless `lookup_inode` reads something else than an inode on its way
(`InodesHold.addToInode`). It does when the inode is not among those created since the array has moved, and
its chain has one that was created before (`SearchLost`).
-/
import Prefetch.Lib.ChainedTable
import Prefetch.Lib.Distinct
import Prefetch.Lib.MovedArray
import Prefetch.Remap.Remapper

namespace Prefetch.Remap

open ChainedTable Distinct MovedArray

/-! ## §1 — the table -/

/-- `struct inode_extents` -/
structure InodeExtents where
  ino : ℕ
  extents : List RemapExtent
  deriving DecidableEq, Repr

/-- What `malloc` and `realloc` do: which words of `inode_hash` are not NULL at first, and with how many inodes
in it the array moves when it is made longer. -/
structure InodeMemory (n : ℕ) where
  leftover : Fin n → Bool
  moves : ℕ → Bool

/-- The array that `inodes` designates, with its entries; `allocated`; `inode_hash`, a table of `n` chains of
addresses. -/
structure InodeTable (n : ℕ) where
  array : ℕ
  inodes : List InodeExtents
  allocated : ℕ
  inodeHash : Table n Pointer

/-- `INODE_ALLOC_ENTRIES` -/
def inodeAllocEntries : ℕ := 8192

/-- What `lookup_inode` comes to: an inode, NULL, or a read of something else than an inode. -/
inductive InodeLookup
  | found (i : ℕ)
  | missing
  | undefined
  deriving DecidableEq, Repr

section Table

variable {n : ℕ}

/-- The inode at an address; there is none behind an address in an array that was given up. -/
def InodeTable.read (t : InodeTable n) (p : Pointer) : Option InodeExtents :=
  if p.array = t.array then t.inodes[p.index]? else none

/-- Somewhere else in memory. -/
def elsewhere : Pointer := ⟨0, 0⟩

/-- Before the first inode, `inode_hash` being allocated. -/
def InodeTable.start (mem : InodeMemory n) : InodeTable n where
  array := 1
  inodes := []
  allocated := 0
  inodeHash := fun h => if mem.leftover h then [elsewhere] else []

/-- An extent comes to the end of the list of an inode. -/
def appendExtent (t : InodeTable n) (i : ℕ) (ext : RemapExtent) : InodeTable n :=
  { t with inodes := t.inodes.modify i fun iext => { iext with extents := iext.extents ++ [ext] } }

/-- The first part of `create_new_inode`: room for another inode. `allocated` is an `int`. -/
def makeRoom (mem : InodeMemory n) (t : InodeTable n) : Except MapStop (InodeTable n) :=
  if t.allocated ≤ t.inodes.length then
    if t.allocated + inodeAllocEntries < 2 ^ 31 then
      .ok { t with
        array := if mem.moves t.inodes.length then t.array + 1 else t.array
        allocated := t.allocated + inodeAllocEntries }
    else .error .undefined
  else .ok t

variable [NeZero n]

/-- `HASH_INO` -/
def hashIno (n : ℕ) [NeZero n] (ino : ℕ) : Fin n := Fin.ofNat n ino

/-- `lookup_inode`: the loop ends at an inode of this number, and where there is no inode. -/
def lookupInode (t : InodeTable n) (ino : ℕ) : InodeLookup :=
  match findFirst t.inodeHash (hashIno n ino) fun act => (t.read act).all fun iext => iext.ino = ino with
  | none => .missing
  | some act => if (t.read act).isSome then .found act.index else .undefined

/-- The second part of `create_new_inode`: the inode, at the head of its chain. -/
def addInode (t : InodeTable n) (ino : ℕ) : InodeTable n :=
  { t with
    inodes := t.inodes ++ [⟨ino, []⟩]
    inodeHash := addHead t.inodeHash (hashIno n ino) ⟨t.array, t.inodes.length⟩ }

/-- `create_new_inode` -/
def createNewInode (mem : InodeMemory n) (t : InodeTable n) (ino : ℕ) : Except MapStop (InodeTable n) :=
  (makeRoom mem t).map fun t => addInode t ino

/-- What `insert_new_extent` does with the inodes. -/
def addToInode (mem : InodeMemory n) (t : InodeTable n) (ino : ℕ) (ext : RemapExtent) :
    Except MapStop (InodeTable n) :=
  match lookupInode t ino with
  | .found i => .ok (appendExtent t i ext)
  | .missing => (createNewInode mem t ino).map fun t' => appendExtent t' t.inodes.length ext
  | .undefined => .error .undefined

end Table

/-! ## §2 — where a search is lost -/

section Lost

variable {n : ℕ} (mem : InodeMemory n)

/-- The array is made longer for the inode created as the `k`-th, and moves. -/
def MovesFor (k : ℕ) : Prop := inodeAllocEntries ∣ k ∧ mem.moves k = true

instance : DecidablePred (MovesFor mem) := fun _ => inferInstanceAs (Decidable (_ ∧ _))

variable [NeZero n] (inos : List ℕ) (ino : ℕ)

/-- With inodes of these numbers, created in this order: the one looked for is not among those created since the
array has moved, and its chain has an address of something else. -/
structure SearchLost : Prop where
  missed : ∀ k, inos[k]? = some ino → Stranded (MovesFor mem) k inos.length
  reached : mem.leftover (hashIno n ino) = true ∨ ∃ k ino', inos[k]? = some ino' ∧
    hashIno n ino' = hashIno n ino ∧ Stranded (MovesFor mem) k inos.length

/-- An inode is to be created, and `allocated` has no value for so many. -/
def AllocatedWraps : Prop := ino ∉ inos ∧ inodeAllocEntries ∣ inos.length ∧ 2 ^ 31 ≤ inos.length + inodeAllocEntries

/-- No extent can be added for this inode. -/
def Lost : Prop := SearchLost mem inos ino ∨ AllocatedWraps inos ino

variable {mem inos ino}

/-- The inode an extent was added for is found the next time. -/
theorem not_lost_insertNew (h : ¬ Lost mem inos ino) : ¬ Lost mem (insertNew inos ino) ino := by
  unfold insertNew
  split_ifs with hmem
  · exact h
  · rintro (hsearch | ⟨hnew, -⟩)
    · have hlast := hsearch.missed inos.length List.getElem?_concat_length
      rw [List.length_append, List.length_singleton] at hlast
      exact not_stranded_last hlast
    · exact hnew (List.mem_append_right _ List.mem_cons_self)

/-- While the first array has not become too small, nothing is lost, if the chains began with NULL. -/
theorem not_lost_of_few (hfew : inos.length ≤ inodeAllocEntries) (hnull : mem.leftover (hashIno n ino) = false) :
    ¬ Lost mem inos ino := by
  have hstays : ∀ k, ¬ Stranded (MovesFor mem) k inos.length := by
    rintro k ⟨j, hkj, hj, hdvd, -⟩
    have hle := Nat.le_of_dvd (by omega) hdvd
    omega
  rintro (⟨-, hreached⟩ | ⟨-, -, hwraps⟩)
  · rcases hreached with hleft | ⟨k, -, -, -, hstranded⟩
    · rw [hnull] at hleft
      cases hleft
    · exact hstays k hstranded
  · unfold inodeAllocEntries at hfew hwraps
    omega

end Lost

/-! ## §3 — the extents of the inodes -/

/-- What was inserted: extents with the numbers of their inodes, in the order of insertion. -/
abbrev Inserted := List (ℕ × RemapExtent)

/-- The extents of an inode. -/
def extentsOf (inserted : Inserted) (ino : ℕ) : List RemapExtent :=
  (inserted.filter fun entry => entry.1 = ino).map Prod.snd

theorem extentsOf_concat (inserted : Inserted) (ino ino' : ℕ) (ext : RemapExtent) :
    extentsOf (inserted ++ [(ino, ext)]) ino' =
      extentsOf inserted ino' ++ if ino = ino' then [ext] else [] := by
  unfold extentsOf
  rw [List.filter_append, List.map_append]
  congr 1
  by_cases heq : ino = ino' <;> simp [heq]

/-- One inode for each number that has extents, with just these. -/
structure InodesRight (inodes : List InodeExtents) (inserted : Inserted) : Prop where
  nodup : (inodes.map InodeExtents.ino).Nodup
  extents : ∀ iext ∈ inodes, iext.extents = extentsOf inserted iext.ino
  has : ∀ entry ∈ inserted, ∃ iext ∈ inodes, iext.ino = entry.1

section Inodes

variable {inodes : List InodeExtents} {inserted : Inserted} {ino : ℕ} {ext : RemapExtent}

/-- A new inode has no extents yet. -/
theorem InodesRight.create (h : InodesRight inodes inserted) (hnew : ∀ iext ∈ inodes, iext.ino ≠ ino) :
    InodesRight (inodes ++ [⟨ino, []⟩]) inserted := by
  refine ⟨?_, fun iext hmem => ?_, fun entry hentry => ?_⟩
  · rw [List.map_append, List.map_singleton, List.nodup_append]
    refine ⟨h.nodup, List.nodup_singleton _, fun a ha b hb => ?_⟩
    obtain ⟨iext, hmem, rfl⟩ := List.mem_map.1 ha
    cases List.mem_singleton.1 hb
    exact hnew iext hmem
  · rcases List.mem_append.1 hmem with hmem | hmem
    · exact h.extents iext hmem
    · cases List.mem_singleton.1 hmem
      have hnone : inserted.filter (fun entry => entry.1 = ino) = [] := by
        rw [List.filter_eq_nil_iff]
        intro entry hentry
        obtain ⟨iext, hold, heq⟩ := h.has entry hentry
        have := hnew iext hold
        simpa [← heq] using this
      rw [extentsOf, hnone]
      rfl
  · obtain ⟨iext, hold, heq⟩ := h.has entry hentry
    exact ⟨iext, List.mem_append_left _ hold, heq⟩

/-- An extent more leaves the numbers of the inodes. -/
theorem modify_numbers (inodes : List InodeExtents) (i : ℕ) (ext : RemapExtent) :
    (inodes.modify i fun iext => { iext with extents := iext.extents ++ [ext] }).map InodeExtents.ino
      = inodes.map InodeExtents.ino := by
  apply List.ext_getElem?
  intro j
  rw [List.getElem?_map, List.getElem?_modify, List.getElem?_map]
  split <;> cases inodes[j]? <;> rfl

/-- An extent comes to its inode. -/
theorem InodesRight.append (h : InodesRight inodes inserted) {i : ℕ} {iext : InodeExtents}
    (hget : inodes[i]? = some iext) (hino : iext.ino = ino) :
    InodesRight (inodes.modify i fun iext => { iext with extents := iext.extents ++ [ext] })
      (inserted ++ [(ino, ext)]) := by
  have hi := (List.getElem?_eq_some_iff.1 hget).1
  have hnumbers := modify_numbers inodes i ext
  refine ⟨hnumbers ▸ h.nodup, fun iext' hmem => ?_, fun entry hentry => ?_⟩
  · obtain ⟨j, hj⟩ := List.mem_iff_getElem?.1 hmem
    rw [List.getElem?_modify] at hj
    obtain ⟨old, hgetOld, hold⟩ := Option.map_eq_some_iff.1 hj
    have hextents := h.extents old (List.mem_of_getElem? hgetOld)
    rw [extentsOf_concat]
    by_cases hij : i = j
    · subst hij
      rw [if_pos rfl] at hold
      obtain rfl : iext = old := by simpa [hget] using hgetOld
      rw [← hold]
      show iext.extents ++ [ext] = _
      rw [hextents, if_pos hino.symm]
    · rw [if_neg hij] at hold
      obtain rfl : old = iext' := hold
      have hne : ino ≠ old.ino := by
        intro heq
        refine hij ((List.getElem?_inj (by simpa using hi) h.nodup).1 ?_)
        rw [List.getElem?_map, List.getElem?_map, hget, hgetOld, Option.map_some, Option.map_some, hino, heq]
      rw [if_neg hne, List.append_nil, hextents]
  · have hexists : ∃ old ∈ inodes, old.ino = entry.1 := by
      rcases List.mem_append.1 hentry with hentry | hentry
      · exact h.has entry hentry
      · cases List.mem_singleton.1 hentry
        exact ⟨iext, List.mem_of_getElem? hget, hino⟩
    obtain ⟨old, hold, heq⟩ := hexists
    have hmem : entry.1 ∈ (inodes.modify i
        fun iext => { iext with extents := iext.extents ++ [ext] }).map InodeExtents.ino := by
      rw [hnumbers]
      exact heq ▸ List.mem_map_of_mem hold
    obtain ⟨iext', hmem', heq'⟩ := List.mem_map.1 hmem
    exact ⟨iext', hmem', heq'⟩

end Inodes

/-! ## §4 — the chains -/

section Chains

variable {n : ℕ} [NeZero n]

/-- The numbers of the inodes, in the order of their creation. -/
def InodeTable.inos (t : InodeTable n) : List ℕ := t.inodes.map InodeExtents.ino

/-- In the chain of a number are the addresses of its inodes as they were when the inodes were created, those of
later arrays first, and what was there at first. -/
structure InodesHold (mem : InodeMemory n) (t : InodeTable n) (inserted : Inserted) : Prop
    extends InodesRight t.inodes inserted where
  array : t.array = arrayAt (MovesFor mem) t.inos.length
  room : inodeAllocEntries ∣ t.allocated ∧ t.inos.length ≤ t.allocated ∧
    t.allocated < t.inos.length + inodeAllocEntries ∧ t.allocated < 2 ^ 31
  chained : ∀ h p, p ∈ t.inodeHash h ↔ mem.leftover h = true ∧ p = elsewhere ∨
    p = addressOf (MovesFor mem) p.index ∧ ∃ ino, t.inos[p.index]? = some ino ∧ hashIno n ino = h
  newest : ∀ h, (t.inodeHash h).Pairwise fun p q => q.array ≤ p.array

variable {mem : InodeMemory n} {t : InodeTable n} {inserted : Inserted} {ino i : ℕ} {ext : RemapExtent}

omit [NeZero n] in
theorem InodeTable.length_inos : t.inos.length = t.inodes.length := List.length_map _

omit [NeZero n] in
theorem InodeTable.getElem?_inos : t.inos[i]? = (t.inodes[i]?).map InodeExtents.ino := List.getElem?_map

/-- The address of an inode is good until the array moves. -/
theorem InodesHold.read_addressOf (h : InodesHold mem t inserted) (hi : i < t.inos.length) :
    t.read (addressOf (MovesFor mem) i)
      = if Stranded (MovesFor mem) i t.inos.length then none else t.inodes[i]? := by
  unfold InodeTable.read
  rw [h.array, if_congr (addressOf_current_iff hi) rfl rfl, ite_not]
  rfl

/-- What was in `inode_hash` at first is no address of an inode. -/
theorem InodesHold.read_elsewhere (h : InodesHold mem t inserted) : t.read elsewhere = none := by
  unfold InodeTable.read
  rw [h.array]
  exact if_neg arrayAt_pos.ne

/-- **Where an address in a chain leads**: to its inode, or nowhere. -/
theorem InodesHold.read_cases (h : InodesHold mem t inserted) {p : Pointer}
    (hp : p ∈ t.inodeHash (hashIno n ino)) :
    (t.read p = none ∧ (mem.leftover (hashIno n ino) = true ∨ ∃ k ino', t.inos[k]? = some ino' ∧
      hashIno n ino' = hashIno n ino ∧ Stranded (MovesFor mem) k t.inos.length)) ∨
    ∃ iext, t.read p = some iext ∧ t.inodes[p.index]? = some iext ∧ p.array = t.array := by
  rcases (h.chained _ p).mp hp with ⟨hleft, rfl⟩ | ⟨haddress, ino', hget, hhash⟩
  · exact .inl ⟨h.read_elsewhere, .inl hleft⟩
  · have hlt : p.index < t.inos.length := (List.getElem?_eq_some_iff.mp hget).1
    have hread := h.read_addressOf hlt
    rw [← haddress] at hread
    by_cases hstranded : Stranded (MovesFor mem) p.index t.inos.length
    · rw [if_pos hstranded] at hread
      exact .inl ⟨hread, .inr ⟨p.index, ino', hget, hhash, hstranded⟩⟩
    · rw [if_neg hstranded] at hread
      rw [InodeTable.getElem?_inos] at hget
      obtain ⟨iext, hiext, -⟩ := Option.map_eq_some_iff.mp hget
      have hcurrent := (addressOf_current_iff hlt).mpr hstranded
      rw [← haddress] at hcurrent
      exact .inr ⟨iext, hread.trans hiext, hiext, hcurrent.trans h.array.symm⟩

/-- An inode found has the number. -/
theorem InodesHold.of_lookup_found (hi : lookupInode t ino = .found i) :
    ∃ iext, t.inodes[i]? = some iext ∧ iext.ino = ino := by
  unfold lookupInode at hi
  split at hi
  · cases hi
  · next act hact =>
    split_ifs at hi with hsome
    cases hi
    obtain ⟨-, hstop⟩ := mem_of_findFirst hact
    obtain ⟨iext, hread⟩ := Option.isSome_iff_exists.mp hsome
    rw [hread, Option.all_some, decide_eq_true_iff] at hstop
    unfold InodeTable.read at hread
    split_ifs at hread
    exact ⟨iext, hread, hstop⟩

/-- A search that ends with NULL: there is no such inode. -/
theorem InodesHold.of_lookup_missing (h : InodesHold mem t inserted) (hmissing : lookupInode t ino = .missing) :
    ino ∉ t.inos ∧ ¬ SearchLost mem t.inos ino := by
  unfold lookupInode at hmissing
  split at hmissing
  · next hnone =>
    have hpassed : ∀ p ∈ t.inodeHash (hashIno n ino), ∃ iext, t.read p = some iext ∧ iext.ino ≠ ino := by
      intro p hp
      have hgoes := List.find?_eq_none.mp hnone p hp
      cases hread : t.read p with
      | none => simp [hread] at hgoes
      | some iext => exact ⟨iext, rfl, by simpa [hread] using hgoes⟩
    have hread : ∀ k ino', t.inos[k]? = some ino' → hashIno n ino' = hashIno n ino →
        ∃ iext, t.read (addressOf (MovesFor mem) k) = some iext ∧ iext.ino ≠ ino := fun k ino' hget hhash =>
      hpassed _ ((h.chained _ _).mpr (.inr ⟨rfl, ino', hget, hhash⟩))
    refine ⟨fun hmem => ?_, fun hlost => ?_⟩
    · obtain ⟨k, hget⟩ := List.mem_iff_getElem?.mp hmem
      obtain ⟨iext, hiext, hne⟩ := hread k ino hget rfl
      unfold InodeTable.read at hiext
      split_ifs at hiext
      rw [InodeTable.getElem?_inos] at hget
      obtain ⟨iext', hiext', hino⟩ := Option.map_eq_some_iff.mp hget
      cases hiext.symm.trans hiext'
      exact hne hino
    · rcases hlost.reached with hleft | ⟨k, ino', hget, hhash, hstranded⟩
      · obtain ⟨iext, hiext, -⟩ := hpassed elsewhere ((h.chained _ _).mpr (.inl ⟨hleft, rfl⟩))
        rw [h.read_elsewhere] at hiext
        cases hiext
      · obtain ⟨iext, hiext, -⟩ := hread k ino' hget hhash
        rw [h.read_addressOf (List.getElem?_eq_some_iff.mp hget).1, if_pos hstranded] at hiext
        cases hiext
  · split_ifs at hmissing

/-- A search that finds the inode is not lost. -/
theorem InodesHold.not_searchLost_of_found (h : InodesHold mem t inserted) (hi : lookupInode t ino = .found i) :
    ¬ SearchLost mem t.inos ino := by
  intro hlost
  obtain ⟨iext, hget, hino⟩ := InodesHold.of_lookup_found hi
  have hinos : t.inos[i]? = some ino := by rw [InodeTable.getElem?_inos, hget, Option.map_some, hino]
  have hstranded := hlost.missed i hinos
  unfold lookupInode at hi
  split at hi
  · cases hi
  · next act hact =>
    split_ifs at hi with hsome
    cases hi
    rcases h.read_cases (mem_of_findFirst hact).1 with ⟨hnone, -⟩ | ⟨iext', -, -, hcurrent⟩
    · rw [hnone] at hsome
      cases hsome
    · rcases (h.chained _ act).mp (mem_of_findFirst hact).1 with ⟨-, rfl⟩ | ⟨haddress, -⟩
      · rw [h.read_elsewhere] at hsome
        cases hsome
      · have hlt := (List.getElem?_eq_some_iff.mp hinos).1
        rw [h.array, haddress] at hcurrent
        exact (addressOf_current_iff hlt).mp hcurrent hstranded

/-- **A search that reads something else** is lost: in a chain the addresses of the array there is come first. -/
theorem InodesHold.of_lookup_undefined (h : InodesHold mem t inserted)
    (hundefined : lookupInode t ino = .undefined) : SearchLost mem t.inos ino := by
  unfold lookupInode at hundefined
  split at hundefined
  · cases hundefined
  · next act hact =>
    split_ifs at hundefined with hsome
    have hnone : t.read act = none := Option.not_isSome_iff_eq_none.mp hsome
    obtain ⟨-, front, back, hsplit, hfront, -⟩ := findFirst_split hact
    have hmem : act ∈ t.inodeHash (hashIno n ino) := (mem_of_findFirst hact).1
    refine ⟨fun k hget => ?_, ?_⟩
    · by_contra hcurrent
      have hlt : k < t.inos.length := (List.getElem?_eq_some_iff.mp hget).1
      have hread := h.read_addressOf hlt
      rw [if_neg hcurrent] at hread
      rw [InodeTable.getElem?_inos] at hget
      obtain ⟨iext, hiext, hino⟩ := Option.map_eq_some_iff.mp hget
      rw [hiext] at hread
      have haddress : addressOf (MovesFor mem) k ∈ t.inodeHash (hashIno n ino) := by
        refine (h.chained _ _).mpr (.inr ⟨rfl, ino, ?_, rfl⟩)
        show t.inos[k]? = some ino
        rw [InodeTable.getElem?_inos, hiext, Option.map_some, hino]
      rw [hsplit] at haddress
      rcases List.mem_append.mp haddress with hbefore | hbehind
      · -- the search would have ended there
        have hpassed := hfront _ hbefore
        rw [hread, Option.all_some, decide_eq_false_iff_not] at hpassed
        exact hpassed hino
      · rcases List.mem_cons.mp hbehind with heq | hbehind
        · rw [heq, hnone] at hread
          cases hread
        · have hnewest := h.newest (hashIno n ino)
          rw [hsplit, List.pairwise_append, List.pairwise_cons] at hnewest
          have hle := hnewest.2.1.1 _ hbehind
          rw [(addressOf_current_iff hlt).mpr hcurrent] at hle
          rcases (h.chained _ act).mp hmem with ⟨-, rfl⟩ | ⟨hact', ino', hget', -⟩
          · exact absurd hle (Nat.not_le_of_lt arrayAt_pos)
          · -- so it is one of the array there is
            have hlt' : act.index < t.inos.length := (List.getElem?_eq_some_iff.mp hget').1
            have hge : (addressOf (MovesFor mem) act.index).array ≤ arrayAt (MovesFor mem) t.inos.length :=
              arrayAt_mono hlt'
            rw [hact'] at hle
            have hread' := h.read_addressOf hlt'
            rw [if_neg ((addressOf_current_iff hlt').mp (le_antisymm hge hle)), ← hact', hnone] at hread'
            rw [InodeTable.getElem?_inos, ← hread'] at hget'
            cases hget'
    · rcases h.read_cases hmem with ⟨-, hreached⟩ | ⟨iext, hread, -⟩
      · exact hreached
      · rw [hnone] at hread
        cases hread

/-- Room for another inode, unless `allocated` wraps. -/
theorem InodesHold.makeRoom (h : InodesHold mem t inserted) (hnew : ino ∉ t.inos) :
    (∃ t', makeRoom mem t = .ok t' ∧ t'.inodes = t.inodes ∧ t'.inodeHash = t.inodeHash ∧
      t'.array = arrayAt (MovesFor mem) (t.inos.length + 1) ∧
      (inodeAllocEntries ∣ t'.allocated ∧ t.inos.length + 1 ≤ t'.allocated ∧
        t'.allocated < t.inos.length + 1 + inodeAllocEntries ∧ t'.allocated < 2 ^ 31) ∧
      ¬ AllocatedWraps t.inos ino) ∨
    makeRoom mem t = .error .undefined ∧ AllocatedWraps t.inos ino := by
  obtain ⟨hdvd, hle, hlt, hint⟩ := h.room
  have hfull : t.allocated ≤ t.inodes.length ↔ inodeAllocEntries ∣ t.inos.length := by
    rw [← InodeTable.length_inos]
    unfold inodeAllocEntries at hdvd hlt ⊢
    omega
  unfold Remap.makeRoom AllocatedWraps
  by_cases hroom : t.allocated ≤ t.inodes.length
  · rw [if_pos hroom]
    have hmultiple := hfull.mp hroom
    have heq : t.allocated = t.inos.length := by
      rw [← InodeTable.length_inos] at hroom
      omega
    by_cases hfits : t.allocated + inodeAllocEntries < 2 ^ 31
    · rw [if_pos hfits]
      refine .inl ⟨_, rfl, rfl, rfl, ?_, ⟨Nat.dvd_add hdvd (Nat.dvd_refl _), ?_, ?_, hfits⟩, ?_⟩
      · show (if mem.moves t.inodes.length then t.array + 1 else t.array) = _
        rw [arrayAt_succ, ← h.array, ← InodeTable.length_inos]
        exact if_congr (and_iff_right hmultiple).symm rfl rfl
      · unfold inodeAllocEntries
        dsimp only
        omega
      · dsimp only
        omega
      · rintro ⟨-, -, hwraps⟩
        omega
    · rw [if_neg hfits]
      exact .inr ⟨rfl, hnew, hmultiple, by omega⟩
  · rw [if_neg hroom]
    have hnot : ¬ inodeAllocEntries ∣ t.inos.length := fun hdvd => hroom (hfull.mpr hdvd)
    refine .inl ⟨t, rfl, rfl, rfl, ?_, ⟨hdvd, ?_, by omega, hint⟩, fun hwraps => hnot hwraps.2.1⟩
    · rw [arrayAt_succ, if_neg fun hmoves => hnot hmoves.1]
      exact h.array
    · rw [← InodeTable.length_inos] at hroom
      omega

/-- No address in a chain is of a later array. -/
theorem InodesHold.array_le (h : InodesHold mem t inserted) {b : Fin n} {p : Pointer} (hp : p ∈ t.inodeHash b)
    {count : ℕ} (hcount : t.inos.length ≤ count) : p.array ≤ arrayAt (MovesFor mem) count := by
  rcases (h.chained b p).mp hp with ⟨-, rfl⟩ | ⟨haddress, ino', hget, -⟩
  · exact Nat.zero_le _
  · have hlt : p.index < t.inos.length := (List.getElem?_eq_some_iff.mp hget).1
    rw [haddress]
    exact arrayAt_mono (hlt.trans_le hcount)

/-- The inode at the head of its chain, in an array that has room for it. -/
theorem InodesHold.addInode (h : InodesHold mem t inserted) (hnew : ino ∉ t.inos) {t' : InodeTable n}
    (hinodes : t'.inodes = t.inodes) (hhash : t'.inodeHash = t.inodeHash)
    (harray : t'.array = arrayAt (MovesFor mem) (t.inos.length + 1))
    (hroom : inodeAllocEntries ∣ t'.allocated ∧ t.inos.length + 1 ≤ t'.allocated ∧
      t'.allocated < t.inos.length + 1 + inodeAllocEntries ∧ t'.allocated < 2 ^ 31) :
    InodesHold mem (addInode t' ino) inserted := by
  have hinos : (Remap.addInode t' ino).inos = t.inos ++ [ino] := by
    show (t'.inodes ++ [(⟨ino, []⟩ : InodeExtents)]).map InodeExtents.ino = _
    rw [hinodes, List.map_append]
    rfl
  have haddress : (⟨t'.array, t'.inodes.length⟩ : Pointer) = addressOf (MovesFor mem) t.inos.length := by
    rw [harray, hinodes, ← InodeTable.length_inos]
    rfl
  have hchain : (Remap.addInode t' ino).inodeHash
      = addHead t.inodeHash (hashIno n ino) (addressOf (MovesFor mem) t.inos.length) := by
    rw [← haddress, ← hhash]
    rfl
  have hnumbers : InodesRight (Remap.addInode t' ino).inodes inserted := by
    show InodesRight (t'.inodes ++ [⟨ino, []⟩]) inserted
    rw [hinodes]
    refine h.toInodesRight.create fun iext hmem => ?_
    rintro rfl
    exact hnew (List.mem_map_of_mem hmem)
  refine ⟨hnumbers, ?_, ?_, fun b p => ?_, fun b => ?_⟩
  · rw [hinos, List.length_append, List.length_singleton]
    exact harray
  · rw [hinos, List.length_append, List.length_singleton]
    exact hroom
  · rw [hchain, mem_addHead, h.chained, hinos]
    constructor
    · rintro (⟨rfl, rfl⟩ | hleft | ⟨hp, ino', hget, hino'⟩)
      · exact .inr ⟨rfl, ino, List.getElem?_concat_length, rfl⟩
      · exact .inl hleft
      · refine .inr ⟨hp, ino', ?_, hino'⟩
        rw [List.getElem?_append_left (List.getElem?_eq_some_iff.mp hget).1]
        exact hget
    · rintro (hleft | ⟨hp, ino', hget, hino'⟩)
      · exact .inr (.inl hleft)
      · rcases Nat.lt_trichotomy p.index t.inos.length with hlt | heq | hgt
        · rw [List.getElem?_append_left hlt] at hget
          exact .inr (.inr ⟨hp, ino', hget, hino'⟩)
        · rw [heq, List.getElem?_concat_length] at hget
          cases hget
          exact .inl ⟨hino'.symm, heq ▸ hp⟩
        · rw [List.getElem?_eq_none (by rw [List.length_append, List.length_singleton]; omega)] at hget
          cases hget
  · rw [hchain]
    unfold addHead
    by_cases hb : b = hashIno n ino
    · subst hb
      rw [Function.update_self, List.pairwise_cons]
      exact ⟨fun q hq => h.array_le hq (Nat.le_succ _), h.newest _⟩
    · rw [Function.update_of_ne hb]
      exact h.newest b

/-- An extent comes to its inode. -/
theorem InodesHold.append (h : InodesHold mem t inserted) {iext : InodeExtents} (hget : t.inodes[i]? = some iext)
    (hino : iext.ino = ino) : InodesHold mem (appendExtent t i ext) (inserted ++ [(ino, ext)]) := by
  have hinos : (appendExtent t i ext).inos = t.inos := modify_numbers t.inodes i ext
  refine ⟨h.toInodesRight.append hget hino, hinos.symm ▸ h.array, hinos.symm ▸ h.room, fun b p => ?_, h.newest⟩
  rw [hinos]
  exact h.chained b p

/-- **What `insert_new_extent` does with the inodes**: the extent comes to its inode, unless that is lost. -/
theorem InodesHold.addToInode (h : InodesHold mem t inserted) (ino : ℕ) (ext : RemapExtent) :
    (∃ t', addToInode mem t ino ext = .ok t' ∧ InodesHold mem t' (inserted ++ [(ino, ext)]) ∧
      t'.inos = insertNew t.inos ino ∧ ¬ Lost mem t.inos ino) ∨
    addToInode mem t ino ext = .error .undefined ∧ Lost mem t.inos ino := by
  unfold Remap.addToInode
  cases hlookup : lookupInode t ino with
  | found i =>
      obtain ⟨iext, hget, hino⟩ := InodesHold.of_lookup_found hlookup
      have hmem : ino ∈ t.inos := hino ▸ List.mem_map_of_mem (List.mem_of_getElem? hget)
      refine .inl ⟨_, rfl, h.append hget hino, ?_, ?_⟩
      · rw [insertNew, if_pos hmem]
        exact modify_numbers t.inodes i ext
      · rintro (hlost | ⟨hnew, -⟩)
        · exact h.not_searchLost_of_found hlookup hlost
        · exact hnew hmem
  | missing =>
      obtain ⟨hnew, hnotLost⟩ := h.of_lookup_missing hlookup
      rcases h.makeRoom hnew with ⟨t₁, hroom, hinodes, hhash, harray, hcount, hfits⟩ | ⟨hwraps, hlost⟩
      · have hcreated := h.addInode hnew hinodes hhash harray hcount
        have hget : (Remap.addInode t₁ ino).inodes[t.inodes.length]? = some ⟨ino, []⟩ := by
          rw [← hinodes]
          exact List.getElem?_concat_length
        refine .inl ⟨appendExtent (Remap.addInode t₁ ino) t.inodes.length ext, ?_, hcreated.append hget rfl, ?_, ?_⟩
        · dsimp only
          rw [createNewInode, hroom]
          rfl
        · rw [insertNew, if_neg hnew]
          refine (modify_numbers _ _ ext).trans ?_
          show (t₁.inodes ++ [(⟨ino, []⟩ : InodeExtents)]).map InodeExtents.ino = _
          rw [hinodes, List.map_append]
          rfl
        · exact fun hlost => hlost.elim hnotLost hfits
      · refine .inr ⟨?_, .inr hlost⟩
        dsimp only
        rw [createNewInode, hwraps]
        rfl
  | undefined => exact .inr ⟨rfl, .inl (h.of_lookup_undefined hlookup)⟩

/-- Before the first inode. -/
theorem inodesHold_start (mem : InodeMemory n) : InodesHold mem (InodeTable.start mem) [] := by
  refine ⟨⟨List.nodup_nil, nofun, nofun⟩, rfl, ?_, fun b p => ?_, fun b => ?_⟩
  · exact ⟨Nat.dvd_zero _, Nat.le_refl _, Nat.succ_pos _, Nat.two_pow_pos 31⟩
  · have hnone : ∀ i : ℕ, (InodeTable.start mem).inos[i]? = none := fun i => List.getElem?_nil
    simp only [hnone, reduceCtorEq, false_and, exists_false, and_false, or_false]
    show p ∈ (if mem.leftover b then [elsewhere] else []) ↔ _
    split_ifs with hleft
    · rw [List.mem_singleton]
      exact (and_iff_right hleft).symm
    · exact iff_of_false List.not_mem_nil fun hp => hleft hp.1
  · show (if mem.leftover b then [elsewhere] else []).Pairwise _
    split_ifs
    · exact List.pairwise_singleton _ _
    · exact List.Pairwise.nil

end Chains

end Prefetch.Remap
