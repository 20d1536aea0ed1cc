/-
# Prefetch.Core.InodeWalk — the walk over the inode lists

`inode_walk_start`, `inode_walk_show` and `inode_walk_next` with the window `ivec` of inodes they work on.
The lists do not change during a walk, as `inode_lock` is held. The window is filled by going over the
lists from the start, or, where the inode shown last is clean, from that inode on.

`windows` says what is shown, window by window: a fill that goes on from a saved inode counts it too low by
one, so it leaves out the next. `inodeWalk_eq` is that the walk shows just that, and `walksAll_iff` that it
shows every inode in use only where no window ends with a clean one.
-/
import Prefetch.Core.Buffer
import Mathlib.Data.List.Basic
import Mathlib.Data.List.Nodup
import Mathlib.Data.List.DropRight

namespace Prefetch.Core

variable {M : Machine} {ι τ : Type*}

/-! ## §1 — the inode lists -/

/-- The lists of the rest of the kernel: `s_dirty` and `s_io` of each super block, the inodes in use and
those unused, each inode on one of them, with the fields the walk reads. -/
structure InodeLists (M : Machine) (ι : Type*) where
  superBlocks : List (List ι × List ι)
  inodeInUse : List ι
  inodeUnused : List ι
  iState : ι → BitVec M.bits
  iCount : ι → ℤ
  iMapping : ι → Bool
  /-- The mask `I_DIRTY`. -/
  iDirty : BitVec M.bits
  nodup : (superBlocks.flatMap (fun sb => sb.1 ++ sb.2) ++ inodeInUse ++ inodeUnused).Nodup
  /-- An inode on the list of a super block is dirty or being written. -/
  iState_ne_zero : ∀ i ∈ superBlocks.flatMap (fun sb => sb.1 ++ sb.2), iState i ≠ 0
  iCount_eq_zero : ∀ i ∈ inodeUnused, iCount i = 0

/-- The inodes on the lists of super blocks. -/
def InodeLists.ofSuperBlocks (lists : InodeLists M ι) : List ι :=
  lists.superBlocks.flatMap fun sb => sb.1 ++ sb.2

/-- All cached inodes, in the order of the lists. -/
def InodeLists.cached (lists : InodeLists M ι) : List ι :=
  lists.ofSuperBlocks ++ lists.inodeInUse ++ lists.inodeUnused

/-! ## §2 — the window -/

/-- `ivec` of a session; `inodes` is the page allocated for it, by index. -/
structure Ivec (ι : Type*) where
  cursor : ℕ := 0
  origin : ℕ := 0
  size : ℕ := 0
  inodes : Option (ℕ → Option ι) := none

/-- `icur` of a session. -/
structure Icur (M : Machine) (ι : Type*) where
  pos : ℕ := 0
  iState : BitVec M.bits := 0
  inode : Option ι := none
  pinnedInode : Option ι := none

/-- `struct inode_walk_session`, less its statistics, as `inode_walk_session_create` makes it. The last
three have no counterpart in C: `reads` are the indices read in `ivec.inodes`, each with `ivec.size` at that
time, `wild` is whether the vector was used before it was allocated, and `bug` whether a `BUG_ON` fired. -/
structure InodeWalkSession (M : Machine) (ι : Type*) where
  ivec : Ivec ι := {}
  icur : Icur M ι := {}
  reads : List (ℕ × ℕ) := []
  wild : Bool := false
  bug : Bool := false

namespace InodeWalkSession

variable [DecidableEq ι] (lists : InodeLists M ι) (ivecSize : ℕ) (s : InodeWalkSession M ι)

/-- `ivec_full`: there are more data following. -/
def ivecFull : Prop := s.ivec.cursor = 0 ∨ s.ivec.origin + s.ivec.size < s.ivec.cursor

instance : Decidable s.ivecFull := by
  unfold ivecFull
  infer_instance

/-- `s->ivec.inodes[s->ivec.size++] = inode` -/
def store (inode : ι) : InodeWalkSession M ι :=
  { s with
    ivec := { s.ivec with
      inodes := s.ivec.inodes.map fun page => Function.update page s.ivec.size (some inode)
      size := s.ivec.size + 1 }
    wild := s.wild || s.ivec.inodes.isNone }

/-- `s->ivec.cursor++` -/
def count : InodeWalkSession M ι := { s with ivec := { s.ivec with cursor := s.ivec.cursor + 1 } }

/-- `ivec_push`; the flag says that the window is full. -/
def ivecPush (inode : ι) : InodeWalkSession M ι × Bool :=
  if lists.iCount inode = 0 then (s, false)
  else if ¬ lists.iMapping inode then (s, false)
  else if ivecSize ≤ s.count.ivec.size then (s.count, true)
  else if s.count.ivec.origin < s.count.ivec.cursor then (s.count.store inode, false)
  else (s.count, false)

/-- Pushing the inodes of a list, until the window is full. -/
def ivecPushAll : List ι → InodeWalkSession M ι → InodeWalkSession M ι × Bool
  | [], s => (s, false)
  | inode :: inodes, s =>
      let pushed := s.ivecPush lists ivecSize inode
      if pushed.2 then pushed else ivecPushAll inodes pushed.1

/-- What follows an inode on the list it is on. -/
def behind (inode : ι) (inodes : List ι) : List ι := (inodes.dropWhile (· ≠ inode)).tail

/-- The inode to go on from: a cursor inode, clean and expected to be unchanged. -/
def saved (pos : ℕ) : Option ι :=
  s.icur.inode.filter fun inode =>
    s.icur.pos ≤ pos ∧ s.icur.iState &&& lists.iDirty = 0 ∧ s.icur.iState = lists.iState inode

/-- `ivec_fill` -/
def ivecFill (pos : ℕ) : InodeWalkSession M ι × Bool :=
  let s := { s with ivec := { s.ivec with origin := pos, cursor := 0, size := 0 } }
  match s.saved lists pos with
  | some inode =>
      let s := { s with ivec := { s.ivec with cursor := s.icur.pos } }
      ivecPushAll lists ivecSize (behind inode lists.inodeInUse ++ lists.inodeUnused) s
  | none => ivecPushAll lists ivecSize lists.cached s

/-- `ivec_inode`, in the window it leaves. -/
def readInode (pos : ℕ) : InodeWalkSession M ι × Option ι :=
  if s.ivec.cursor ≤ pos then (s, none)
  else
    let inode := s.ivec.inodes.bind fun page => page (pos - s.ivec.origin)
    ({ s with
        icur := { s.icur with pos := pos, inode := inode }
        reads := s.reads ++ [(pos - s.ivec.origin, s.ivec.size)]
        wild := s.wild || s.ivec.inodes.isNone }, inode)

/-- `ivec_inode` -/
def ivecInode (pos : ℕ) : InodeWalkSession M ι × Option ι :=
  if (s.ivecFull ∧ s.ivec.origin + s.ivec.size ≤ pos) ∨ pos < s.ivec.origin then
    (s.ivecFill lists ivecSize pos).1.readInode pos
  else s.readInode pos

/-! ## §3 — the walk -/

/-- `inode_walk_start`, with whether there is a page for `ivec.inodes`. -/
def inodeWalkStart (page : Bool) (pos : ℕ) : InodeWalkSession M ι × Option ι :=
  if page then
    let s := { s with
      ivec := { s.ivec with inodes := some fun _ => none, size := 0 }
      icur := { s.icur with pinnedInode := s.icur.inode }
      bug := s.bug || s.icur.pinnedInode.isSome }
    s.ivecInode lists ivecSize pos
  else (s, none)

/-- `inode_walk_show`, with what `show_inode` does to the state of the rest. -/
def inodeWalkShow (showInode : τ → ι → τ) (pos : ℕ) (t : τ) : InodeWalkSession M ι × τ :=
  match s.ivecInode lists ivecSize pos with
  | (s, none) => ({ s with bug := true }, t)
  | (s, some inode) => (s, showInode t inode)

/-- `inode_walk_next`, `pos` being the position after it was moved on. -/
def inodeWalkNext (pos : ℕ) : InodeWalkSession M ι × Option ι := s.ivecInode lists ivecSize pos

/-- The loop of `walk_pages`: `none` when it takes more than `fuel` turns. -/
def inodeWalkLoop (showInode : τ → ι → τ) :
    ℕ → InodeWalkSession M ι → ℕ → τ → Option (InodeWalkSession M ι × τ)
  | 0, _, _, _ => none
  | fuel + 1, s, pos, t =>
      let shown := s.inodeWalkShow lists ivecSize showInode pos t
      let next := shown.1.inodeWalkNext lists ivecSize (pos + 1)
      match next.2 with
      | none => some (next.1, shown.2)
      | some _ => inodeWalkLoop showInode fuel next.1 (pos + 1) shown.2

/-- `inode_walk_stop`, less the references it takes and drops. -/
def inodeWalkStop : InodeWalkSession M ι :=
  { s with icur := { s.icur with
      iState := (s.icur.inode.map lists.iState).getD s.icur.iState
      pinnedInode := none } }

end InodeWalkSession

/-- The walk of a new session from position 0 until `NULL`; there are no more turns than inodes. -/
def inodeWalk [DecidableEq ι] (lists : InodeLists M ι) (ivecSize : ℕ) (page : Bool)
    (showInode : τ → ι → τ) (t : τ) : Option (InodeWalkSession M ι × τ) :=
  match ({} : InodeWalkSession M ι).inodeWalkStart lists ivecSize page 0 with
  | (s, none) => some (s, t)
  | (s, some _) => s.inodeWalkLoop lists ivecSize showInode lists.cached.length 0 t

/-! ## §4 — filling the window -/

/-- An inode that is shown: in use, with pages. -/
def InodeLists.counted (lists : InodeLists M ι) (inode : ι) : Bool :=
  decide (lists.iCount inode ≠ 0) && lists.iMapping inode

/-- The inodes to show, in order. -/
def InodeLists.toShow (lists : InodeLists M ι) : List ι := lists.cached.filter lists.counted

namespace InodeWalkSession

variable {lists : InodeLists M ι} {ivecSize : ℕ} {s r : InodeWalkSession M ι} {pos o : ℕ} {q : List ι}

/-- The vector is allocated and `r` is `s` but for it and the place it is at. -/
structure Frame (s r : InodeWalkSession M ι) : Prop where
  inodes : r.ivec.inodes.isSome
  origin : r.ivec.origin = s.ivec.origin
  icur : r.icur = s.icur
  reads : r.reads = s.reads
  wild : r.wild = s.wild
  bug : r.bug = s.bug

theorem Frame.refl (hpage : s.ivec.inodes.isSome) : Frame s s := ⟨hpage, rfl, rfl, rfl, rfl, rfl⟩

theorem Frame.trans {u : InodeWalkSession M ι} (h : Frame s r) (h' : Frame r u) : Frame s u :=
  ⟨h'.inodes, h'.origin.trans h.origin, h'.icur.trans h.icur, h'.reads.trans h.reads,
    h'.wild.trans h.wild, h'.bug.trans h.bug⟩

/-- The first places of the vector hold `q`. -/
def Holds (s : InodeWalkSession M ι) (q : List ι) : Prop :=
  ∃ page, s.ivec.inodes = some page ∧ ∀ k (h : k < q.length), page k = some q[k]

/-- A window on `q` that begins at `o`: it holds as much of `q` as fits, and its cursor is one further on
if that is not all. -/
structure Window (ivecSize : ℕ) (s : InodeWalkSession M ι) (o : ℕ) (q : List ι) : Prop where
  origin : s.ivec.origin = o
  size : s.ivec.size = min ivecSize q.length
  cursor : s.ivec.cursor = o + min (ivecSize + 1) q.length
  holds : s.Holds (q.take ivecSize)

theorem Holds.isSome (h : s.Holds q) : s.ivec.inodes.isSome := by
  obtain ⟨page, hpage, -⟩ := h
  rw [hpage]
  rfl

theorem ivecPush_not_counted {inode : ι} (h : lists.counted inode = false) :
    s.ivecPush lists ivecSize inode = (s, false) := by
  unfold ivecPush
  by_cases hcount : lists.iCount inode = 0
  · rw [if_pos hcount]
  · have hmapping : ¬ lists.iMapping inode := by simpa [InodeLists.counted, hcount] using h
    rw [if_neg hcount, if_pos hmapping]

theorem ivecPush_counted {inode : ι} (h : lists.counted inode = true) :
    s.ivecPush lists ivecSize inode =
      if ivecSize ≤ s.ivec.size then (s.count, true)
      else if s.ivec.origin ≤ s.ivec.cursor then (s.count.store inode, false) else (s.count, false) := by
  obtain ⟨hcount, hmapping⟩ : lists.iCount inode ≠ 0 ∧ lists.iMapping inode := by
    simpa [InodeLists.counted] using h
  unfold ivecPush
  rw [if_neg hcount, if_neg (not_not.2 hmapping)]
  simp only [count, Nat.lt_succ_iff]

/-- Storing one more inode. -/
theorem Holds.store (h : s.Holds q) (hsize : s.ivec.size = q.length) (inode : ι) :
    (s.store inode).Holds (q ++ [inode]) := by
  obtain ⟨page, hpage, hq⟩ := h
  refine ⟨Function.update page s.ivec.size (some inode), by simp [InodeWalkSession.store, hpage], ?_⟩
  intro k hk
  rw [List.length_append, List.length_singleton] at hk
  by_cases hlast : k = q.length
  · subst hlast
    rw [hsize, Function.update_self, List.getElem_append_right (Nat.le_refl _)]
    simp
  · have hlt : k < q.length := by omega
    rw [hsize, Function.update_of_ne hlast, List.getElem_append_left hlt]
    exact hq k hlt

theorem frame_count (hpage : s.ivec.inodes.isSome) : Frame s s.count :=
  ⟨hpage, rfl, rfl, rfl, rfl, rfl⟩

theorem frame_store (hpage : s.ivec.inodes.isSome) (inode : ι) : Frame s (s.store inode) := by
  refine ⟨?_, rfl, rfl, rfl, ?_, rfl⟩
  · simpa [store] using hpage
  · rw [store, Option.isNone_eq_false_iff.2 hpage, Bool.or_false]

/-- Pushing into a window that is not full yet. -/
theorem ivecPushAll_window (inodes : List ι) (horigin : s.ivec.origin = o)
    (hlen : q.length ≤ ivecSize) (hsize : s.ivec.size = q.length)
    (hcursor : s.ivec.cursor = o + q.length) (hq : s.Holds q) :
    Window ivecSize (ivecPushAll lists ivecSize inodes s).1 o (q ++ inodes.filter lists.counted) ∧
      Frame s (ivecPushAll lists ivecSize inodes s).1 := by
  induction inodes generalizing s q with
  | nil =>
      refine ⟨⟨horigin, ?_, ?_, ?_⟩, Frame.refl hq.isSome⟩
      · simp [ivecPushAll, hsize, hlen]
      · simp only [ivecPushAll, List.filter_nil, List.append_nil, hcursor]
        omega
      · simpa [ivecPushAll, List.take_of_length_le hlen] using hq
  | cons inode inodes ih =>
      rw [ivecPushAll]
      cases hcounted : lists.counted inode with
      | false =>
          rw [ivecPush_not_counted hcounted, List.filter_cons_of_neg (by simp [hcounted])]
          exact ih horigin hlen hsize hcursor hq
      | true =>
          rw [List.filter_cons_of_pos hcounted]
          by_cases hfull : ivecSize ≤ s.ivec.size
          · have hstep : s.ivecPush lists ivecSize inode = (s.count, true) := by
              rw [ivecPush_counted hcounted, if_pos hfull]
            rw [hstep, if_pos rfl]
            have hlen : q.length = ivecSize := by omega
            refine ⟨⟨horigin, ?_, ?_, ?_⟩, frame_count hq.isSome⟩
            · simp only [count, List.length_append, List.length_cons]
              omega
            · simp only [count, List.length_append, List.length_cons]
              omega
            · rw [List.take_append_of_le_length hlen.ge, List.take_of_length_le hlen.le]
              exact hq
          · have hstep : s.ivecPush lists ivecSize inode = (s.count.store inode, false) := by
              rw [ivecPush_counted hcounted, if_neg hfull, if_pos (by omega)]
            rw [hstep, if_neg Bool.false_ne_true, List.append_cons]
            obtain ⟨hwindow, hframe⟩ := ih (s := s.count.store inode) horigin
              (by rw [List.length_append, List.length_singleton]; omega)
              (by rw [List.length_append, List.length_singleton, ← hsize]; rfl)
              (by rw [List.length_append, List.length_singleton, ← Nat.add_assoc, ← hcursor]; rfl)
              (Holds.store (s := s.count) hq hsize inode)
            exact ⟨hwindow, ((frame_count hq.isSome).trans
              (frame_store (s := s.count) hq.isSome inode)).trans hframe⟩

/-- Pushing from further ahead: what lies before the window is only counted. -/
theorem ivecPushAll_skip (lists : InodeLists M ι) (hpos : 0 < ivecSize) (inodes : List ι)
    (hpage : s.ivec.inodes.isSome) (hsize : s.ivec.size = 0) (hcursor : s.ivec.cursor ≤ s.ivec.origin)
    (hlen : s.ivec.origin - s.ivec.cursor ≤ (inodes.filter lists.counted).length) :
    Window ivecSize (ivecPushAll lists ivecSize inodes s).1 s.ivec.origin
        ((inodes.filter lists.counted).drop (s.ivec.origin - s.ivec.cursor)) ∧
      Frame s (ivecPushAll lists ivecSize inodes s).1 := by
  have hnil : s.Holds ([] : List ι) := by
    obtain ⟨page, hpage⟩ := Option.isSome_iff_exists.1 hpage
    exact ⟨page, hpage, fun k hk => absurd hk (Nat.not_lt_zero k)⟩
  induction inodes generalizing s with
  | nil =>
      have hzero : s.ivec.origin - s.ivec.cursor = 0 := Nat.le_zero.1 hlen
      rw [hzero, List.drop_zero]
      exact ivecPushAll_window (q := []) [] rfl (Nat.zero_le _) hsize (by simp; omega) hnil
  | cons inode inodes ih =>
      by_cases hstart : s.ivec.cursor = s.ivec.origin
      · rw [hstart, Nat.sub_self, List.drop_zero]
        exact ivecPushAll_window (q := []) _ rfl (Nat.zero_le _) hsize hstart hnil
      rw [ivecPushAll]
      cases hcounted : lists.counted inode with
      | false =>
          rw [List.filter_cons_of_neg (by simp [hcounted])] at hlen ⊢
          rw [ivecPush_not_counted hcounted]
          exact ih hpage hsize hcursor hlen hnil
      | true =>
          rw [List.filter_cons_of_pos hcounted, List.length_cons] at hlen
          rw [List.filter_cons_of_pos hcounted]
          have hdrop : s.ivec.origin - s.ivec.cursor = s.ivec.origin - (s.ivec.cursor + 1) + 1 := by
            omega
          have hstep : s.ivecPush lists ivecSize inode = (s.count, false) := by
            rw [ivecPush_counted hcounted, if_neg (by omega), if_neg (by omega)]
          rw [hstep, if_neg Bool.false_ne_true, hdrop, List.drop_succ_cons]
          obtain ⟨hwindow, hframe⟩ := ih (s := s.count) hpage hsize
            (show s.ivec.cursor + 1 ≤ s.ivec.origin by omega)
            (show s.ivec.origin - (s.ivec.cursor + 1) ≤ _ by omega) hnil
          exact ⟨hwindow, (frame_count hpage).trans hframe⟩

/-! ## §5 — one turn -/

/-- What holds of a session in a walk: it was made for it, and it was used as it should be. -/
structure Sound (s : InodeWalkSession M ι) : Prop where
  iState : s.icur.iState = 0
  reads : ∀ read ∈ s.reads, read.1 < read.2
  wild : s.wild = false
  bug : s.bug = false

theorem Sound.frame {s r : InodeWalkSession M ι} (hs : s.Sound) (h : Frame s r) : r.Sound :=
  ⟨h.icur ▸ hs.iState, h.reads ▸ hs.reads, h.wild.trans hs.wild, h.bug.trans hs.bug⟩

/-- Reading from the window. -/
theorem readInode_window (hs : s.Sound) (hw : Window ivecSize s o q) (hlo : o ≤ pos)
    (hhi : pos < o + min ivecSize q.length) :
    ∃ r, s.readInode pos = (r, q[pos - o]?) ∧ Window ivecSize r o q ∧ r.Sound ∧
      r.icur.pos = pos ∧ r.icur.inode = q[pos - o]? := by
  obtain ⟨page, hpage, hq⟩ := hw.holds
  have hlt : pos - o < (q.take ivecSize).length := by
    rw [List.length_take]
    omega
  have hread : (s.ivec.inodes.bind fun page => page (pos - s.ivec.origin)) = q[pos - o]? := by
    rw [hpage, Option.bind_some, hw.origin, hq _ hlt, List.getElem_take,
      List.getElem?_eq_getElem (by omega)]
  have hcursor : ¬ s.ivec.cursor ≤ pos := by
    rw [hw.cursor]
    omega
  unfold readInode
  rw [if_neg hcursor, hread]
  refine ⟨_, rfl, ⟨hw.origin, hw.size, hw.cursor, hw.holds⟩, ⟨hs.iState, ?_, ?_, hs.bug⟩, rfl, rfl⟩
  · intro read hmem
    rcases List.mem_append.1 hmem with hmem | hmem
    · exact hs.reads read hmem
    · cases List.mem_singleton.1 hmem
      rw [hw.origin, hw.size]
      show pos - o < min ivecSize q.length
      omega
  · rw [hs.wild, hpage]
    rfl

/-- Where the window ends. -/
theorem readInode_end (hcursor : s.ivec.cursor ≤ pos) : s.readInode pos = (s, none) := by
  unfold readInode
  rw [if_pos hcursor]

section Turn

variable [DecidableEq ι]

theorem behind_append {pre post : List ι} {inode : ι} (hpre : inode ∉ pre) :
    behind inode (pre ++ inode :: post) = post := by
  unfold behind
  have hne : ∀ a ∈ pre, decide (a ≠ inode) = true := fun a ha =>
    decide_eq_true fun heq => hpre (heq ▸ ha)
  rw [List.dropWhile_append_of_pos hne]
  simp

/-- Behind a clean inode that is shown, on its list and on the next, are the ones to show after it. -/
theorem filter_behind {m : ℕ} {inode : ι} (hm : lists.toShow[m]? = some inode)
    (hclean : lists.iState inode = 0) :
    (behind inode lists.inodeInUse ++ lists.inodeUnused).filter lists.counted =
      lists.toShow.drop (m + 1) := by
  obtain ⟨hcached, hcounted⟩ := List.mem_filter.1 (List.mem_of_getElem? hm)
  have hcount : lists.iCount inode ≠ 0 := (by simpa [InodeLists.counted] using hcounted : _ ∧ _).1
  have huse : inode ∈ lists.inodeInUse := by
    rcases List.mem_append.1 hcached with h | h
    · rcases List.mem_append.1 h with h | h
      · exact absurd hclean (lists.iState_ne_zero inode h)
      · exact h
    · exact absurd (lists.iCount_eq_zero inode h) hcount
  obtain ⟨pre, post, hsplit⟩ := List.append_of_mem huse
  have hnodup : lists.cached.Nodup := lists.nodup
  have hpre : inode ∉ pre := by
    have huseNodup := (List.nodup_append.1 (List.nodup_append.1 hnodup).1).2.1
    rw [hsplit] at huseNodup
    exact fun hmem => (List.nodup_append.1 huseNodup).2.2 inode hmem inode List.mem_cons_self rfl
  rw [hsplit, behind_append hpre]
  have hshow : lists.toShow = (lists.ofSuperBlocks ++ pre).filter lists.counted ++
      inode :: (post ++ lists.inodeUnused).filter lists.counted := by
    rw [InodeLists.toShow, InodeLists.cached, hsplit, ← List.filter_cons_of_pos hcounted,
      ← List.filter_append]
    simp
  have hplace : m = ((lists.ofSuperBlocks ++ pre).filter lists.counted).length := by
    have hlt : m < lists.toShow.length := (List.getElem?_eq_some_iff.1 hm).1
    apply (List.getElem?_inj hlt (hnodup.filter _)).1
    rw [hm, hshow]
    simp
  rw [hshow, hplace, List.drop_length_add_append]
  rfl

/-- Inside the window nothing is filled. -/
theorem ivecInode_window (hw : Window ivecSize s o q) (hlo : o ≤ pos)
    (hhi : pos < o + min ivecSize q.length) :
    s.ivecInode lists ivecSize pos = s.readInode pos := by
  unfold ivecInode
  rw [if_neg]
  rw [hw.origin, hw.size]
  omega

/-- A fill from the start of the lists. -/
theorem ivecFill_scan (lists : InodeLists M ι) (hs : s.Sound) (hpos : 0 < ivecSize)
    (hpage : s.ivec.inodes.isSome) (hsaved : s.saved lists pos = none) (hlen : pos ≤ lists.toShow.length) :
    Window ivecSize (s.ivecFill lists ivecSize pos).1 pos (lists.toShow.drop pos) ∧
      (s.ivecFill lists ivecSize pos).1.Sound := by
  set u : InodeWalkSession M ι :=
    { s with ivec := { s.ivec with origin := pos, cursor := 0, size := 0 } } with hu
  have hfill : s.ivecFill lists ivecSize pos = ivecPushAll lists ivecSize lists.cached u := by
    have husaved : u.saved lists pos = none := hsaved
    unfold ivecFill
    simp only [← hu, husaved]
  have husound : u.Sound := ⟨hs.iState, hs.reads, hs.wild, hs.bug⟩
  obtain ⟨hwindow, hframe⟩ := ivecPushAll_skip (s := u) lists hpos lists.cached hpage rfl
    (Nat.zero_le _) hlen
  rw [hfill]
  exact ⟨hwindow, husound.frame hframe⟩

/-- A fill that goes on from a saved inode counts it as if it had not been shown yet, and leaves out the
next. -/
theorem ivecFill_saved (hs : s.Sound) (hpos : 0 < ivecSize) (hpage : s.ivec.inodes.isSome) {m : ℕ}
    {inode : ι} (hm : lists.toShow[m]? = some inode) (hclean : lists.iState inode = 0)
    (hinode : s.icur.inode = some inode) (hicur : s.icur.pos + 1 = pos)
    (hlen : m + 1 < lists.toShow.length) :
    Window ivecSize (s.ivecFill lists ivecSize pos).1 pos (lists.toShow.drop (m + 2)) ∧
      (s.ivecFill lists ivecSize pos).1.Sound := by
  set u : InodeWalkSession M ι :=
    { s with ivec := { s.ivec with origin := pos, cursor := s.icur.pos, size := 0 } } with hu
  have hfill : s.ivecFill lists ivecSize pos = ivecPushAll lists ivecSize
      (behind inode lists.inodeInUse ++ lists.inodeUnused) u := by
    have hsaved : s.saved lists pos = some inode := by
      unfold saved
      rw [hinode, Option.filter_some, if_pos]
      simp [hs.iState, hclean]
      omega
    set v : InodeWalkSession M ι :=
      { s with ivec := { s.ivec with origin := pos, cursor := 0, size := 0 } } with hv
    have hvsaved : v.saved lists pos = some inode := hsaved
    unfold ivecFill
    simp only [← hv, hvsaved]
    rfl
  have husound : u.Sound := ⟨hs.iState, hs.reads, hs.wild, hs.bug⟩
  have hone : u.ivec.origin - u.ivec.cursor = 1 := by
    show pos - s.icur.pos = 1
    omega
  have hskip := ivecPushAll_skip (s := u) lists hpos
    (behind inode lists.inodeInUse ++ lists.inodeUnused) hpage rfl
    (show s.icur.pos ≤ pos by omega)
  rw [filter_behind hm hclean, List.length_drop, hone, List.drop_drop] at hskip
  obtain ⟨hwindow, hframe⟩ := hskip (by omega)
  rw [hfill]
  exact ⟨hwindow, husound.frame hframe⟩

end Turn

/-! ## §6 — the windows of a walk -/

/-- The inodes left out before the window behind that at `o`: one more if it goes on from a saved inode,
else none, as the lists are counted from the start. -/
def leftOut (clean : ι → Bool) (ivecSize : ℕ) (toShow : List ι) (o d : ℕ) : ℕ :=
  if (toShow[o + d + ivecSize - 1]?).any clean then d + 1 else 0

/-- What is shown from the window at `o` on, where `d` inodes were left out before it. -/
def windows (clean : ι → Bool) (ivecSize : ℕ) (toShow : List ι) (o d : ℕ) : List ι :=
  (toShow.drop (o + d)).take ivecSize ++
    if toShow.length ≤ o + d + ivecSize ∨ ivecSize = 0 then []
    else windows clean ivecSize toShow (o + ivecSize) (leftOut clean ivecSize toShow o d)
termination_by toShow.length - o
decreasing_by omega

/-- What is shown behind the window at `o`. -/
def windowsBehind (clean : ι → Bool) (ivecSize : ℕ) (toShow : List ι) (o d : ℕ) : List ι :=
  if toShow.length ≤ o + d + ivecSize ∨ ivecSize = 0 then []
  else windows clean ivecSize toShow (o + ivecSize) (leftOut clean ivecSize toShow o d)

theorem windows_eq (clean : ι → Bool) (ivecSize : ℕ) (toShow : List ι) (o d : ℕ) :
    windows clean ivecSize toShow o d =
      (toShow.drop (o + d)).take ivecSize ++ windowsBehind clean ivecSize toShow o d := by
  rw [windows]
  rfl

/-- Not on a list of dirty inodes, so the walk may go on from it. -/
def clean (lists : InodeLists M ι) (inode : ι) : Bool := decide (lists.iState inode = 0)

section Loop

variable {d : ℕ}

/-- The walk is at `pos` in the window at `o`, with `d` inodes left out before. -/
structure At (lists : InodeLists M ι) (ivecSize : ℕ) (s : InodeWalkSession M ι) (o d pos : ℕ) :
    Prop where
  window : Window ivecSize s o (lists.toShow.drop (o + d))
  lower : o ≤ pos
  upper : pos < o + min ivecSize (lists.toShow.length - (o + d))
  sound : s.Sound
  icurPos : s.icur.pos = pos
  icurInode : s.icur.inode = lists.toShow[pos + d]?

/-- Reading at a place in the window moves there. -/
theorem readInode_at (hs : s.Sound) (hw : Window ivecSize s o (lists.toShow.drop (o + d)))
    (hlo : o ≤ pos) (hhi : pos < o + min ivecSize (lists.toShow.length - (o + d))) :
    ∃ r, s.readInode pos = (r, lists.toShow[pos + d]?) ∧ At lists ivecSize r o d pos := by
  have hplace : o + d + (pos - o) = pos + d := by omega
  have hlen : pos < o + min ivecSize (lists.toShow.drop (o + d)).length := by
    rwa [List.length_drop]
  obtain ⟨r, hread, hwindow, hsound, hpos, hinode⟩ := readInode_window hs hw hlo hlen
  rw [List.getElem?_drop, hplace] at hread hinode
  exact ⟨r, hread, hwindow, hlo, hhi, hsound, hpos, hinode⟩

/-- What is left in the window at a place. -/
theorem drop_window {inode : ι} (hlo : o ≤ pos)
    (hhi : pos < o + min ivecSize (lists.toShow.length - (o + d)))
    (hm : lists.toShow[pos + d]? = some inode) :
    ((lists.toShow.drop (o + d)).take ivecSize).drop (pos - o) =
      inode :: ((lists.toShow.drop (o + d)).take ivecSize).drop (pos + 1 - o) := by
  have hlen : pos - o < ((lists.toShow.drop (o + d)).take ivecSize).length := by
    rw [List.length_take, List.length_drop]
    omega
  have hplace : o + d + (pos - o) = pos + d := by omega
  rw [List.drop_eq_getElem_cons hlen, List.getElem_take, List.getElem_drop,
    show pos - o + 1 = pos + 1 - o by omega]
  simp only [hplace]
  rw [(List.getElem?_eq_some_iff.1 hm).2]

variable [DecidableEq ι]

/-- A turn in the window. -/
theorem At.ivecInode (h : At lists ivecSize s o d pos) {pos' : ℕ} (hlo : o ≤ pos')
    (hhi : pos' < o + min ivecSize (lists.toShow.length - (o + d))) :
    ∃ r, s.ivecInode lists ivecSize pos' = (r, lists.toShow[pos' + d]?) ∧
      At lists ivecSize r o d pos' := by
  have hlen : pos' < o + min ivecSize (lists.toShow.drop (o + d)).length := by
    rwa [List.length_drop]
  rw [ivecInode_window h.window hlo hlen]
  exact readInode_at h.sound h.window hlo hhi

/-- The last turn: the window is not full and its end is reached. -/
theorem At.ivecInode_end (h : At lists ivecSize s o d pos)
    (hlast : pos + 1 = o + (lists.toShow.length - (o + d)))
    (hfits : lists.toShow.length ≤ o + d + ivecSize) :
    s.ivecInode lists ivecSize (pos + 1) = (s, none) := by
  have hcursor : s.ivec.cursor = pos + 1 := by
    rw [h.window.cursor, List.length_drop]
    omega
  have hsize : s.ivec.origin + s.ivec.size = pos + 1 := by
    rw [h.window.origin, h.window.size, List.length_drop]
    omega
  have hfull : ¬ s.ivecFull := by
    unfold ivecFull
    omega
  have hlower : ¬ pos + 1 < s.ivec.origin := by
    rw [h.window.origin]
    have := h.lower
    omega
  unfold InodeWalkSession.ivecInode
  rw [if_neg (by simp [hfull, hlower]), readInode_end hcursor.le]

/-- The fill at the end of a full window. -/
theorem At.ivecFill (h : At lists ivecSize s o d pos) (hpos : 0 < ivecSize) (hlast : pos + 1 = o + ivecSize)
    (hmore : o + d + ivecSize < lists.toShow.length) :
    Window ivecSize (s.ivecFill lists ivecSize (pos + 1)).1 (pos + 1)
        (lists.toShow.drop (pos + 1 + leftOut (clean lists) ivecSize lists.toShow o d)) ∧
      (s.ivecFill lists ivecSize (pos + 1)).1.Sound := by
  have hplace : o + d + ivecSize - 1 = pos + d := by omega
  have hpage : s.ivec.inodes.isSome := h.window.holds.isSome
  have hlt : pos + d < lists.toShow.length := by omega
  have hm : lists.toShow[pos + d]? = some lists.toShow[pos + d] := List.getElem?_eq_getElem hlt
  unfold leftOut
  rw [hplace, hm, Option.any_some]
  cases hclean : clean lists lists.toShow[pos + d] with
  | true =>
      rw [if_pos rfl, show pos + 1 + (d + 1) = pos + d + 2 by omega]
      apply ivecFill_saved h.sound hpos hpage hm (of_decide_eq_true hclean) (h.icurInode.trans hm)
      · rw [h.icurPos]
      · omega
  | false =>
      rw [if_neg Bool.false_ne_true, Nat.add_zero]
      have hdirty : lists.iState lists.toShow[pos + d] ≠ 0 := of_decide_eq_false hclean
      have hsaved : s.saved lists (pos + 1) = none := by
        unfold saved
        rw [h.icurInode, hm, Option.filter_some, if_neg]
        rw [h.sound.iState]
        simpa using fun _ heq => hdirty heq.symm
      exact ivecFill_scan lists h.sound hpos hpage hsaved (by omega)

/-- The turn behind a full window. -/
theorem At.ivecInode_next (h : At lists ivecSize s o d pos) (hpos : 0 < ivecSize)
    (hlast : pos + 1 = o + ivecSize) (hmore : o + d + ivecSize < lists.toShow.length) :
    let d' := leftOut (clean lists) ivecSize lists.toShow o d
    (∃ r, s.ivecInode lists ivecSize (pos + 1) = (r, lists.toShow[pos + 1 + d']?) ∧
        At lists ivecSize r (pos + 1) d' (pos + 1)) ∨
      lists.toShow.length ≤ pos + 1 + d' ∧
        ∃ r, s.ivecInode lists ivecSize (pos + 1) = (r, none) ∧ r.Sound := by
  intro d'
  obtain ⟨hwindow, hsound⟩ := h.ivecFill hpos hlast hmore
  have hfull : s.ivecFull ∧ s.ivec.origin + s.ivec.size ≤ pos + 1 := by
    unfold ivecFull
    rw [h.window.origin, h.window.size, h.window.cursor, List.length_drop]
    omega
  unfold InodeWalkSession.ivecInode
  rw [if_pos (.inl hfull)]
  by_cases hnext : pos + 1 + d' < lists.toShow.length
  · exact .inl (readInode_at hsound hwindow (Nat.le_refl _) (by omega))
  · refine .inr ⟨Nat.le_of_not_lt hnext, _, readInode_end ?_, hsound⟩
    rw [hwindow.cursor, List.length_drop]
    omega

/-- Showing the inode the walk is at. -/
theorem At.inodeWalkShow (h : At lists ivecSize s o d pos) (showInode : τ → ι → τ) (t : τ) :
    ∃ r inode, s.inodeWalkShow lists ivecSize showInode pos t = (r, showInode t inode) ∧
      At lists ivecSize r o d pos ∧ lists.toShow[pos + d]? = some inode := by
  obtain ⟨r, hread, hr⟩ := h.ivecInode h.lower h.upper
  have hlower := h.lower
  have hupper := h.upper
  have hm := List.getElem?_eq_getElem (show pos + d < lists.toShow.length by omega)
  refine ⟨r, _, ?_, hr, hm⟩
  unfold InodeWalkSession.inodeWalkShow
  rw [hread, hm]

/-- **The loop shows the rest of the window and what is behind it.** -/
theorem At.inodeWalkLoop (h : At lists ivecSize s o d pos) (hpos : 0 < ivecSize) (fuel : ℕ)
    (hfuel : lists.toShow.length ≤ pos + fuel) (showInode : τ → ι → τ) (t : τ) :
    ∃ r, s.inodeWalkLoop lists ivecSize showInode fuel pos t = some (r,
      ((((lists.toShow.drop (o + d)).take ivecSize).drop (pos - o)) ++
        windowsBehind (clean lists) ivecSize lists.toShow o d).foldl showInode t) ∧ r.Sound := by
  induction fuel generalizing s o d pos t with
  | zero =>
      have hlower := h.lower
      have hupper := h.upper
      omega
  | succ fuel ih =>
      obtain ⟨r, inode, hshow, hr, hm⟩ := h.inodeWalkShow showInode t
      have hlower := h.lower
      have hupper := h.upper
      rw [drop_window hlower hupper hm, List.cons_append, List.foldl_cons, InodeWalkSession.inodeWalkLoop,
        hshow]
      by_cases hinside : pos + 1 < o + min ivecSize (lists.toShow.length - (o + d))
      · -- the next one is in the window
        obtain ⟨u, hnext, hu⟩ := hr.ivecInode (Nat.le_succ_of_le hlower) hinside
        have hm' := List.getElem?_eq_getElem (show pos + 1 + d < lists.toShow.length by omega)
        simp only [inodeWalkNext, hnext, hm']
        exact ih hu (by omega) _
      have hdone : ((lists.toShow.drop (o + d)).take ivecSize).drop (pos + 1 - o) = [] := by
        rw [List.drop_eq_nil_iff, List.length_take, List.length_drop]
        omega
      rw [hdone, List.nil_append]
      by_cases hfits : lists.toShow.length ≤ o + d + ivecSize
      · -- the window held the rest
        have hnext := hr.ivecInode_end (by omega) hfits
        simp only [inodeWalkNext, hnext]
        unfold windowsBehind
        rw [if_pos (.inl hfits)]
        exact ⟨r, rfl, hr.sound⟩
      · have hlast : pos + 1 = o + ivecSize := by omega
        have hbehind : windowsBehind (clean lists) ivecSize lists.toShow o d =
            windows (clean lists) ivecSize lists.toShow (pos + 1)
              (leftOut (clean lists) ivecSize lists.toShow o d) := by
          unfold windowsBehind
          rw [if_neg (by omega), hlast]
        rw [hbehind, windows_eq]
        obtain ⟨u, hnext, hu⟩ | ⟨hshort, u, hnext, hu⟩ := hr.ivecInode_next hpos hlast (by omega)
        · have hm' := List.getElem?_eq_getElem (show _ < lists.toShow.length from
            (by have := hu.upper; omega : pos + 1 + leftOut (clean lists) ivecSize lists.toShow o d < _))
          simp only [inodeWalkNext, hnext, hm']
          have hrest := ih hu (by omega) (showInode t inode)
          rwa [Nat.sub_self, List.drop_zero] at hrest
        · simp only [inodeWalkNext, hnext]
          unfold windowsBehind
          rw [List.drop_eq_nil_of_le hshort, if_pos (.inl (by omega)), List.take_nil]
          exact ⟨u, rfl, hu⟩

end Loop

end InodeWalkSession

/-! ## §7 — the whole walk -/

section Walk

open InodeWalkSession

/-- Behind a window that ends with a clean inode the next one is missing. -/
theorem windows_one_ne {skips : ι → Bool} {ivecSize : ℕ} {toShow : List ι} (hnodup : toShow.Nodup)
    (hpos : 0 < ivecSize) {o : ℕ} (hlt : o < toShow.length) (d : ℕ) :
    windows skips ivecSize toShow o (d + 1) ≠ toShow.drop o := by
  intro heq
  rw [windows_eq, List.drop_eq_getElem_cons hlt] at heq
  by_cases hmore : o + (d + 1) < toShow.length
  · -- its first one is further on
    obtain ⟨k, rfl⟩ : ∃ k, ivecSize = k + 1 := ⟨ivecSize - 1, by omega⟩
    rw [List.drop_eq_getElem_cons hmore, List.take_succ_cons, List.cons_append] at heq
    have hsame := (List.cons.inj heq).1
    have hplace := (hnodup.getElem_inj_iff).1 hsame
    omega
  · unfold windowsBehind at heq
    rw [List.drop_eq_nil_of_le (by omega), if_pos (.inl (by omega)), List.take_nil] at heq
    cases heq

/-- All are shown exactly when no window ends with a clean inode and has more behind it. -/
theorem windows_eq_iff (skips : ι → Bool) {ivecSize : ℕ} {toShow : List ι} (hnodup : toShow.Nodup)
    (hpos : 0 < ivecSize) (o : ℕ) :
    windows skips ivecSize toShow o 0 = toShow.drop o ↔
      ∀ j inode, 1 ≤ j → o + j * ivecSize < toShow.length →
        toShow[o + j * ivecSize - 1]? = some inode → skips inode = false := by
  rw [windows_eq, Nat.add_zero]
  unfold windowsBehind
  rw [Nat.add_zero]
  by_cases hfits : toShow.length ≤ o + ivecSize
  · rw [if_pos (.inl hfits), List.append_nil, List.take_of_length_le (by rw [List.length_drop]; omega)]
    refine iff_of_true rfl fun j inode hj hlt _ => ?_
    have hle := Nat.mul_le_mul_right ivecSize hj
    omega
  have hsplit : toShow.drop o = (toShow.drop o).take ivecSize ++ toShow.drop (o + ivecSize) := by
    rw [← List.drop_drop, List.take_append_drop]
  have hlast := List.getElem?_eq_getElem (show o + ivecSize - 1 < toShow.length by omega)
  rw [if_neg (by omega)]
  nth_rewrite 2 [hsplit]
  rw [List.append_cancel_left_eq, leftOut, Nat.add_zero, hlast, Option.any_some]
  cases hskips : skips toShow[o + ivecSize - 1] with
  | true =>
      rw [if_pos rfl]
      refine iff_of_false (windows_one_ne hnodup hpos (by omega) 0) fun h => ?_
      have hfalse := h 1 _ (Nat.le_refl 1) (by omega) (by rw [Nat.one_mul]; exact hlast)
      rw [hskips] at hfalse
      cases hfalse
  | false =>
      rw [if_neg Bool.false_ne_true, windows_eq_iff skips hnodup hpos (o + ivecSize)]
      constructor
      · intro h j inode hj hlt hm
        by_cases hone : j = 1
        · subst hone
          rw [Nat.one_mul, hlast] at hm
          cases hm
          exact hskips
        · have hmul : o + ivecSize + (j - 1) * ivecSize = o + j * ivecSize := by
            rw [Nat.sub_one_mul]
            have := Nat.le_mul_of_pos_left ivecSize (show 0 < j by omega)
            omega
          exact h (j - 1) inode (by omega) (hmul ▸ hlt) (hmul ▸ hm)
      · intro h j inode hj hlt hm
        have hmul : o + ivecSize + j * ivecSize = o + (j + 1) * ivecSize := by
          rw [Nat.succ_mul]
          omega
        exact h (j + 1) inode (by omega) (hmul ▸ hlt) (hmul ▸ hm)
termination_by toShow.length - o
decreasing_by omega

/-- Nothing else is shown. -/
theorem mem_of_mem_windows {skips : ι → Bool} {ivecSize : ℕ} {toShow : List ι} {o d : ℕ} {inode : ι}
    (h : inode ∈ windows skips ivecSize toShow o d) : inode ∈ toShow := by
  fun_induction windows skips ivecSize toShow o d with
  | case1 o d ih =>
      rcases List.mem_append.1 h with h | h
      · exact List.mem_of_mem_drop (List.mem_of_mem_take h)
      · split at h
        · cases h
        · next hmore => exact ih hmore h

/-- The inodes in use are those to show where all of them have pages. -/
theorem toShow_eq_iff (lists : InodeLists M ι) :
    lists.toShow = lists.cached.filter (fun inode => lists.iCount inode ≠ 0) ↔
      ∀ inode ∈ lists.cached, lists.iCount inode ≠ 0 → lists.iMapping inode := by
  have hfilter : lists.toShow =
      (lists.cached.filter fun inode => lists.iCount inode ≠ 0).filter lists.iMapping := by
    rw [List.filter_filter]
    apply List.filter_congr
    intro inode _
    exact Bool.and_comm _ _
  rw [hfilter, List.filter_eq_self]
  simp only [List.mem_filter, decide_eq_true_eq, and_imp]

theorem sound_start (page : ℕ → Option ι) :
    ({ ivec := { inodes := some page } } : InodeWalkSession M ι).Sound :=
  ⟨rfl, nofun, rfl, rfl⟩

variable [DecidableEq ι]

/-- **The walk shows window by window**, reads inside its vector, and ends. -/
theorem inodeWalk_eq (lists : InodeLists M ι) {ivecSize : ℕ} (hpos : 0 < ivecSize)
    (showInode : τ → ι → τ) (t : τ) :
    ∃ r, inodeWalk lists ivecSize true showInode t =
      some (r, (windows (clean lists) ivecSize lists.toShow 0 0).foldl showInode t) ∧ r.Sound := by
  set s : InodeWalkSession M ι := { ivec := { inodes := some fun _ => none } } with hs
  have hsound : s.Sound := sound_start _
  have hfill : s.ivecFull ∧ s.ivec.origin + s.ivec.size ≤ 0 := ⟨.inl rfl, Nat.le_refl _⟩
  have hstart : ({} : InodeWalkSession M ι).inodeWalkStart lists ivecSize true 0 =
      (s.ivecFill lists ivecSize 0).1.readInode 0 := by
    show s.ivecInode lists ivecSize 0 = _
    unfold ivecInode
    rw [if_pos (.inl hfill)]
  obtain ⟨hwindow, hfilled⟩ := ivecFill_scan lists hsound hpos rfl rfl (Nat.zero_le _)
  have hlen : lists.toShow.length ≤ lists.cached.length := List.length_filter_le _ _
  unfold inodeWalk
  rw [hstart, windows_eq]
  by_cases hnone : lists.toShow.length = 0
  · have hcursor : (s.ivecFill lists ivecSize 0).1.ivec.cursor ≤ 0 := by
      rw [hwindow.cursor, List.length_drop]
      omega
    unfold windowsBehind
    rw [readInode_end hcursor, List.drop_eq_nil_of_le (by omega), if_pos (.inl (by omega)),
      List.take_nil]
    exact ⟨_, rfl, hfilled⟩
  · obtain ⟨r, hread, hr⟩ := readInode_at (d := 0) hfilled hwindow (Nat.le_refl _) (by omega)
    rw [hread, List.getElem?_eq_getElem (by omega)]
    exact hr.inodeWalkLoop hpos _ (by omega) showInode t

/-- The walk shows every inode in use once, in the order of the lists, and only reads what is in its
vector. -/
def WalksAll (lists : InodeLists M ι) (ivecSize : ℕ) : Prop :=
  ∃ r shown, inodeWalk lists ivecSize true (fun shown inode => shown ++ [inode]) [] = some (r, shown) ∧
    shown = lists.cached.filter (fun inode => lists.iCount inode ≠ 0) ∧
    (∀ read ∈ r.reads, read.1 < read.2) ∧ r.wild = false ∧ r.bug = false

/-- **When all inodes in use are shown**: they have pages, and no window ends with a clean one that has
more behind it. -/
theorem walksAll_iff (lists : InodeLists M ι) (ivecSize : ℕ) (hpos : 0 < ivecSize) :
    WalksAll lists ivecSize ↔
      (∀ inode ∈ lists.cached, lists.iCount inode ≠ 0 → lists.iMapping inode) ∧
        ∀ j inode, 1 ≤ j → j * ivecSize < lists.toShow.length →
          lists.toShow[j * ivecSize - 1]? = some inode → lists.iState inode ≠ 0 := by
  have hshown : ∀ xs : List ι, xs.foldl (fun shown inode => shown ++ [inode]) [] = xs := by
    intro xs
    induction xs using List.reverseRecOn with
    | nil => rfl
    | append_singleton xs inode ih => rw [List.foldl_append, ih]; rfl
  obtain ⟨r, hwalk, hr⟩ := inodeWalk_eq lists hpos (fun shown inode => shown ++ [inode]) []
  rw [hshown] at hwalk
  have hall : WalksAll lists ivecSize ↔ windows (clean lists) ivecSize lists.toShow 0 0 =
      lists.cached.filter (fun inode => lists.iCount inode ≠ 0) := by
    constructor
    · rintro ⟨r', shown, hwalk', hshown, -⟩
      cases hwalk.symm.trans hwalk'
      exact hshown
    · exact fun heq => ⟨r, _, hwalk, heq, hr.reads, hr.wild, hr.bug⟩
  have hnodup : lists.toShow.Nodup := lists.nodup.filter _
  have hwindows := windows_eq_iff (clean lists) hnodup hpos 0
  simp only [List.drop_zero, Nat.zero_add, clean, decide_eq_false_iff_not] at hwindows
  rw [hall, ← hwindows, ← toShow_eq_iff]
  constructor
  · intro heq
    -- what is shown has pages, so nothing in use is without
    have hshow : lists.toShow = lists.cached.filter (fun inode => lists.iCount inode ≠ 0) := by
      rw [toShow_eq_iff]
      intro inode hmem hcount
      have hin : inode ∈ lists.cached.filter (fun inode => lists.iCount inode ≠ 0) :=
        List.mem_filter.2 ⟨hmem, decide_eq_true hcount⟩
      rw [← heq] at hin
      have hcounted := (List.mem_filter.1 (mem_of_mem_windows hin)).2
      exact (by simpa [InodeLists.counted] using hcounted : _ ∧ _).2
    exact ⟨hshow, heq.trans hshow.symm⟩
  · rintro ⟨hshow, heq⟩
    exact heq.trans hshow

/-- Two dirty inodes, two clean ones in use and one that is not. -/
def twoDirty : InodeLists .bits64 ℕ where
  superBlocks := [([4, 5], [])]
  inodeInUse := [1, 2]
  inodeUnused := [3]
  iState := fun inode => if inode = 4 ∨ inode = 5 then 1 else 0
  iCount := fun inode => if inode = 3 then 0 else 1
  iMapping := fun _ => true
  iDirty := 7
  nodup := by decide
  iState_ne_zero := by decide
  iCount_eq_zero := by decide

/-- A window of two ends with a dirty inode, and the two behind it are shown by the next one. -/
theorem walksAll_twoDirty : WalksAll twoDirty 2 := by
  refine (walksAll_iff twoDirty 2 (by decide)).mpr ⟨fun _ _ _ => rfl, fun j inode hj hlt hlast => ?_⟩
  have hlen : twoDirty.toShow.length = 4 := by decide
  obtain rfl : j = 1 := by omega
  obtain rfl : 5 = inode := Option.some.inj hlast
  decide

/-- Two clean inodes in use and one that is not, with no dirty ones. -/
def twoClean : InodeLists .bits64 ℕ where
  superBlocks := [([], [])]
  inodeInUse := [1, 2]
  inodeUnused := [3]
  iState := fun _ => 0
  iCount := fun inode => if inode = 3 then 0 else 1
  iMapping := fun _ => true
  iDirty := 7
  nodup := by decide
  iState_ne_zero := by decide
  iCount_eq_zero := by decide

/-- With one place in the window the second inode is not shown. -/
theorem not_walksAll_twoClean :
    ¬ ∀ (lists : InodeLists .bits64 ℕ) (ivecSize : ℕ), 1 ≤ ivecSize →
      (∀ inode ∈ lists.cached, lists.iMapping inode) → WalksAll lists ivecSize := by
  intro h
  obtain ⟨r, shown, hwalk, hshown, -⟩ := h twoClean 1 (Nat.le_refl 1) (fun _ _ => rfl)
  have hone : (inodeWalk twoClean 1 true (fun shown inode => shown ++ [inode]) []).map Prod.snd =
      some [1] := by decide
  rw [hwalk] at hone
  cases hone
  exact absurd hshown (by decide)

end Walk

end Prefetch.Core
