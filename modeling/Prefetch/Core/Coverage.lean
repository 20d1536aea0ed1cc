/-
# Prefetch.Core.Coverage — a trace covers the pages touched while it was taken

A page touched while somebody traces leaves a mark that some walk or the release hook turns into a
record: its referenced bit, set in the cache, or a record already appended. `Gathered` collects the
two. No step of any client loses a gathered page or gathers an untouched one, except that the hook
does not record a page that leaves as a swap cache page.

`covers_touched`: the fragment of a client whose start found no tracer covers exactly the pages of
files on block devices touched between its start and its stop, those that left as swap cache pages
excepted. Files without a block device never get into the trace (`deviceless_not_covered`).
-/
import Prefetch.Core.Clients

namespace Prefetch.Core

open Function Runs

variable {M : Machine} {κ ι : Type*}

/-! ## §1 — referenced pages of one file -/

/-- The page at an index of a file, as the trace names it. -/
def Names (host : Option (Inode M)) (index : BitVec M.bits) (k : PageId M) : Prop :=
  host = some ⟨some k.device, k.inodeNo⟩ ∧ k.index = index.toNat

namespace AddressSpace

variable {m : AddressSpace M} {index : BitVec M.bits} {page : Page M}

theorem mem_referencedIndices {pages : List (Page M)} {n : ℕ} :
    n ∈ referencedIndices pages ↔ ∃ p ∈ pages, p.referenced = true ∧ p.index.toNat = n := by
  simp [referencedIndices, and_assoc]

theorem find_eq_some (h : m.find index = some page) : page ∈ m.pages ∧ page.index = index := by
  refine ⟨List.mem_of_find?_eq_some h, ?_⟩
  simpa using List.find?_some h

theorem find_eq_none (h : m.find index = none) : ∀ p ∈ m.pages, p.index ≠ index := by
  intro p hp
  simpa using List.find?_eq_none.1 h p hp

/-- A file has one page at each index. -/
theorem eq_of_index_eq {p q : Page M} (hp : p ∈ m.pages) (hq : q ∈ m.pages)
    (h : p.index = q.index) : p = q := by
  have hnodup : (m.pages.map (·.index.toNat)).Nodup :=
    List.pairwise_map.2 (m.sorted.imp Nat.ne_of_lt)
  exact List.inj_on_of_nodup_map hnodup hp hq (congrArg BitVec.toNat h)

/-- Touching a cached page adds it to the referenced ones. -/
theorem hasReferenced_touch (hfind : m.find index ≠ none) (k : PageId M) :
    (m.setReferenced index true).HasReferenced k ↔ m.HasReferenced k ∨ Names m.host index k := by
  obtain ⟨page, hpage⟩ := Option.ne_none_iff_exists'.1 hfind
  obtain ⟨hmem, hindex⟩ := find_eq_some hpage
  unfold HasReferenced Names
  rw [← and_or_left]
  apply and_congr_right
  intro _
  rw [mem_referencedIndices, mem_referencedIndices]
  constructor
  · rintro ⟨p, hp, href, hk⟩
    obtain ⟨q, hq, rfl⟩ := List.mem_map.1 hp
    split at href
    · next heq =>
      rw [if_pos heq] at hk
      exact .inr (heq ▸ hk.symm)
    · next hne =>
      rw [if_neg hne] at hk
      exact .inl ⟨q, hq, href, hk⟩
  · rintro (⟨q, hq, href, hk⟩ | hk)
    · refine ⟨_, List.mem_map.2 ⟨q, hq, rfl⟩, ?_, ?_⟩
      · split
        · rfl
        · exact href
      · split <;> exact hk
    · refine ⟨_, List.mem_map.2 ⟨page, hmem, rfl⟩, ?_, ?_⟩
      · rw [if_pos hindex]
      · rw [if_pos hindex, hk, hindex]

/-- A page that comes into the cache is not referenced. -/
theorem hasReferenced_insert (hfind : m.find index = none) (hlt : index.toNat + 1 < 2 ^ M.bits)
    (k : PageId M) : (m.insert index hlt).HasReferenced k ↔ m.HasReferenced k := by
  unfold HasReferenced
  apply and_congr_right
  intro _
  rw [mem_referencedIndices, mem_referencedIndices]
  constructor
  · rintro ⟨p, hp, href, hk⟩
    simp only [insert, List.mem_append, List.mem_cons, List.mem_filter] at hp
    rcases hp with hp | rfl | hp
    · exact ⟨p, hp.1, href, hk⟩
    · cases href
    · exact ⟨p, hp.1, href, hk⟩
  · rintro ⟨p, hp, href, hk⟩
    refine ⟨p, ?_, href, hk⟩
    have hne : p.index.toNat ≠ index.toNat :=
      fun h => find_eq_none hfind p hp (BitVec.eq_of_toNat_eq h)
    simp only [insert, List.mem_append, List.mem_cons, List.mem_filter, decide_eq_true_eq]
    rcases Nat.lt_or_gt_of_ne hne with hless | hgreater
    · exact .inl ⟨hp, hless⟩
    · exact .inr (.inr ⟨hp, hgreater⟩)

/-- A page that leaves takes its bit with it. -/
theorem hasReferenced_remove (hfind : m.find index = some page) (k : PageId M) :
    m.HasReferenced k ↔
      (m.remove index).HasReferenced k ∨ page.referenced = true ∧ Names m.host index k := by
  obtain ⟨hmem, hindex⟩ := find_eq_some hfind
  have hhost : (m.remove index).host = m.host := rfl
  unfold HasReferenced Names
  rw [hhost, and_left_comm, ← and_or_left]
  apply and_congr_right
  intro _
  rw [mem_referencedIndices, mem_referencedIndices]
  constructor
  · rintro ⟨p, hp, href, hk⟩
    by_cases heq : p.index = index
    · have hpage : p = page := eq_of_index_eq hp hmem (heq.trans hindex.symm)
      subst hpage
      exact .inr ⟨href, hindex ▸ hk.symm⟩
    · refine .inl ⟨p, List.mem_filter.2 ⟨hp, ?_⟩, href, hk⟩
      simpa using heq
  · rintro (⟨p, hp, href, hk⟩ | ⟨href, hk⟩)
    · exact ⟨p, (List.mem_filter.1 hp).1, href, hk⟩
    · exact ⟨page, hmem, href, by rw [hindex, hk]⟩

end AddressSpace

/-! ## §2 — gathered pages -/

/-- The page is in the trace, or its referenced bit waits for the next walk. -/
def Gathered (new : List (Record M)) (core : CoreState M ι) (k : PageId M) : Prop :=
  Covers new k ∨ ∃ i, (core.cache i).HasReferenced k

/-- The event touches the page. -/
def EnvEvent.Touches (host : ι → Option (Inode M)) (k : PageId M) : EnvEvent M ι → Prop
  | .touch i index => Names (host i) index k
  | _ => False

/-- The event takes the page out of the cache as a swap cache page. -/
def EnvEvent.SwapsOut (host : ι → Option (Inode M)) (k : PageId M) : EnvEvent M ι → Prop
  | .evict i index true => Names (host i) index k
  | _ => False

/-- The files of the page cache. -/
def CoreState.hosts (core : CoreState M ι) (i : ι) : Option (Inode M) := (core.cache i).host

variable [DecidableEq ι]

omit [DecidableEq ι] in
theorem Effect.hosts {recording : Prop} {visited : List ι} {a u : ℤ} [DecidableEq ι]
    {core core' : CoreState M ι} (h : Effect recording visited a u core core') :
    core'.hosts = core.hosts := by
  funext i
  show (core'.cache i).host = (core.cache i).host
  rw [h.cache i]
  split <;> rfl

/-- **A recording walk moves gathered pages from the bits into the trace.** -/
theorem Effect.gathered {visited : List ι} {a u : ℤ} {core core' : CoreState M ι}
    (h : Effect True visited a u core core') (hover : core'.trace.overflow = false) :
    ∃ new', Appends core.trace core'.trace new' ∧
      ∀ new k, Gathered (new ++ new') core' k ↔ Gathered new core k := by
  obtain ⟨new', hnew', hcovers⟩ := h.pages
  refine ⟨new', hnew', ?_⟩
  intro new k
  unfold Gathered
  rw [covers_append, hcovers hover k, or_assoc]
  apply or_congr_right
  constructor
  · rintro (⟨-, i, -, hk⟩ | ⟨i, hk⟩)
    · exact ⟨i, hk⟩
    · rw [h.cache i] at hk
      split at hk
      · exact absurd hk (not_hasReferenced_clear _ k)
      · exact ⟨i, hk⟩
  · rintro ⟨i, hk⟩
    by_cases hi : i ∈ visited
    · exact .inl ⟨trivial, i, hi, hk⟩
    · refine .inr ⟨i, ?_⟩
      rwa [h.cache i, if_neg hi]

/-- The referenced pages after one file changed. -/
theorem exists_hasReferenced_update (cache : ι → AddressSpace M) (i : ι) (m : AddressSpace M)
    (k : PageId M) : (∃ j, (update cache i m j).HasReferenced k) ↔
      m.HasReferenced k ∨ ∃ j, j ≠ i ∧ (cache j).HasReferenced k :=
  exists_update_iff cache (fun _ m => m.HasReferenced k)

omit [DecidableEq ι] in
theorem exists_hasReferenced_split (cache : ι → AddressSpace M) (i : ι) (k : PageId M) :
    (∃ j, (cache j).HasReferenced k) ↔
      (cache i).HasReferenced k ∨ ∃ j, j ≠ i ∧ (cache j).HasReferenced k := by
  classical
  simpa using exists_hasReferenced_update cache i (cache i) k

theorem hosts_update (core : CoreState M ι) (i : ι) (m : AddressSpace M) (t : PrefetchTrace M)
    (hhost : m.host = (core.cache i).host) :
    CoreState.hosts { core with trace := t, cache := update core.cache i m } = core.hosts := by
  funext j
  show (update core.cache i m j).host = (core.cache j).host
  by_cases hj : j = i
  · subst hj
    rw [update_self, hhost]
  · rw [update_of_ne hj]

/-- What is gathered when a page leaves the cache: the release hook records it, unless it is swapped out. -/
theorem evict_gathered {core : CoreState M ι} {i : ι} {index : BitVec M.bits} {page : Page M}
    {pageSwapCache : Bool} (hfind : (core.cache i).find index = some page)
    (hcount : 0 < core.trace.tracersCount)
    (hover : (prefetchAddPageToTrace core.trace (core.cache i).host page pageSwapCache).overflow =
      false) :
    ∃ new', Appends core.trace
        (prefetchAddPageToTrace core.trace (core.cache i).host page pageSwapCache) new' ∧
      ∀ new k,
        let core' : CoreState M ι := { core with
          trace := prefetchAddPageToTrace core.trace (core.cache i).host page pageSwapCache
          cache := update core.cache i ((core.cache i).remove index) }
        (Gathered (new ++ new') core' k → Gathered new core k) ∧
          (Gathered new core k → ¬ (EnvEvent.evict i index pageSwapCache).SwapsOut core.hosts k →
            Gathered (new ++ new') core' k) := by
  obtain ⟨new', hnew', hcovers⟩ := prefetchAddPageToTrace_pages core.trace
    (core.cache i).host page pageSwapCache
  have hindex := (AddressSpace.find_eq_some hfind).2
  refine ⟨new', hnew', ?_⟩
  intro new k core'
  have hcovers' := hcovers hover k
  rw [hindex] at hcovers'
  unfold Gathered
  rw [covers_append, hcovers', exists_hasReferenced_update,
    exists_hasReferenced_split core.cache i, AddressSpace.hasReferenced_remove hfind]
  constructor
  · rintro ((hk | ⟨-, href, -, hk⟩) | hk | hk)
    · exact .inl hk
    · exact .inr (.inl (.inr ⟨href, hk⟩))
    · exact .inr (.inl (.inl hk))
    · exact .inr (.inr hk)
  · rintro (hk | (hk | ⟨href, hk⟩) | hk) hswap
    · exact .inl (.inl hk)
    · exact .inr (.inl hk)
    · have hnoswap : pageSwapCache = false := by
        cases pageSwapCache
        · rfl
        · exact absurd hk hswap
      exact .inl (.inr ⟨hcount, href, hnoswap, hk⟩)
    · exact .inr (.inr hk)

/-- **An event around the module gathers what it touches** and loses only what it swaps out. -/
theorem envStep_gathered {core core' : CoreState M ι} {e : EnvEvent M ι}
    (h : envStep core e = some core') (hcount : 0 < core.trace.tracersCount)
    (hover : core'.trace.overflow = false) :
    core'.hosts = core.hosts ∧ ∃ new', Appends core.trace core'.trace new' ∧ ∀ new k,
      (Gathered (new ++ new') core' k → Gathered new core k ∨ e.Touches core.hosts k) ∧
      (Gathered new core k ∨ e.Touches core.hosts k → ¬ e.SwapsOut core.hosts k →
        Gathered (new ++ new') core' k) := by
  cases e with
  | touch i index =>
      simp only [envStep] at h
      split at h
      · cases h
      · next hfind =>
        cases h
        refine ⟨hosts_update core i _ _ rfl, [], .refl _, ?_⟩
        intro new k
        have hbits : (∃ j, (update core.cache i
              ((core.cache i).setReferenced index true) j).HasReferenced k) ↔
            (∃ j, (core.cache j).HasReferenced k) ∨ Names (core.hosts i) index k := by
          rw [exists_hasReferenced_update, exists_hasReferenced_split core.cache i,
            AddressSpace.hasReferenced_touch hfind, CoreState.hosts, or_right_comm]
        unfold Gathered EnvEvent.Touches
        rw [List.append_nil, hbits, ← or_assoc]
        exact ⟨id, fun hk _ => hk⟩
  | insert i index =>
      simp only [envStep] at h
      split at h
      · next hlt =>
        split at h
        · next hfind =>
          cases h
          refine ⟨hosts_update core i _ _ rfl, [], .refl _, ?_⟩
          intro new k
          have hbits : (∃ j, (update core.cache i
                ((core.cache i).insert index hlt) j).HasReferenced k) ↔
              ∃ j, (core.cache j).HasReferenced k := by
            rw [exists_hasReferenced_update, exists_hasReferenced_split core.cache i,
              AddressSpace.hasReferenced_insert hfind]
          unfold Gathered
          rw [List.append_nil, hbits]
          exact ⟨.inl, fun hk _ => hk.resolve_right id⟩
        · cases h
      · cases h
  | evict i index pageSwapCache =>
      simp only [envStep] at h
      split at h
      · cases h
      · next page hfind =>
        cases h
        obtain ⟨new', hnew', hgathered⟩ := evict_gathered hfind hcount hover
        refine ⟨hosts_update core i _ _ rfl, new', hnew', ?_⟩
        intro new k
        obtain ⟨hback, hforth⟩ := hgathered new k
        exact ⟨fun hk => .inl (hback hk), fun hk => hforth (hk.resolve_right id)⟩
  | control enabled =>
      cases h
      refine ⟨rfl, [], .refl _, ?_⟩
      intro new k
      rw [List.append_nil]
      exact ⟨.inl, fun hk _ => hk.resolve_right id⟩

/-! ## §3 — gathering over a run -/

/-- The event touches the page. -/
def Event.Touches (host : ι → Option (Inode M)) (k : PageId M) : Event M κ ι → Prop
  | .env e => e.Touches host k
  | _ => False

/-- The event takes the page out of the cache as a swap cache page. -/
def Event.SwapsOut (host : ι → Option (Inode M)) (k : PageId M) : Event M κ ι → Prop
  | .env e => e.SwapsOut host k
  | _ => False

variable [DecidableEq κ] [Fintype κ]

/-- **While somebody traces, every step gathers what it touches** and loses only what it swaps out:
the walks of the others move pages from the bits into the trace, and no release clears it. -/
theorem step_gathered {s s' : System M κ ι} {e : Event M κ ι} {c : κ} {startMarker : TraceMarker}
    (hinv : Inv s) (hc : s.clients c = .tracing startMarker) (h : step s e = some s')
    (hover : s'.core.trace.overflow = false) :
    s'.core.hosts = s.core.hosts ∧
      ∃ new', Appends s.core.trace s'.core.trace new' ∧ ∀ new k,
        (Gathered (new ++ new') s'.core k → Gathered new s.core k ∨ e.Touches s.core.hosts k) ∧
        (Gathered new s.core k ∨ e.Touches s.core.hosts k → ¬ e.SwapsOut s.core.hosts k →
          Gathered (new ++ new') s'.core k) := by
  have hcount : 0 < s.core.trace.tracersCount := by
    have hone : 1 ≤ tally Client.isTracing s.clients := by
      apply one_le_tally (c := c)
      rw [hc]
      rfl
    have htracers := hinv.tracers
    omega
  -- the calls of clients: nothing is touched, and what is cleared is recorded
  have hcall : ∀ {visited : List ι} {a u : ℤ} {core' : CoreState M ι},
      Effect True visited a u s.core core' → core'.trace.overflow = false →
      core'.hosts = s.core.hosts ∧ ∃ new', Appends s.core.trace core'.trace new' ∧ ∀ new k,
        (Gathered (new ++ new') core' k → Gathered new s.core k ∨ False) ∧
        (Gathered new s.core k ∨ False → ¬ False → Gathered (new ++ new') core' k) := by
    intro visited a u core' heffect hover'
    obtain ⟨new', hnew', hiff⟩ := heffect.gathered hover'
    refine ⟨heffect.hosts, new', hnew', ?_⟩
    intro new k
    exact ⟨fun hk => .inl ((hiff new k).1 hk), fun hk _ => (hiff new k).2 (hk.resolve_right id)⟩
  cases step_effect hinv.clearing h with
  | started hidle heffect =>
      apply hcall (heffect.congr _) hover
      exact iff_true_intro hcount.ne'
  | startFailed hidle heffect => exact hcall heffect hover
  | continued heffect => exact hcall heffect hover
  | stopped htracing heffect => exact hcall heffect hover
  | stopFailed htracing hd heffect => exact hcall heffect hover
  | @released d memory _ _ _ hstopped =>
      have hd : c ≠ d := by
        rintro rfl
        rw [hc] at hstopped
        cases hstopped
      have htwo : 2 ≤ tally Client.holds s.clients := by
        apply two_le_tally _ _ hd
        · rw [hc]
          rfl
        · rw [hstopped]
          rfl
      rw [← hinv.users] at htwo
      obtain ⟨-, hcache, -⟩ := prefetchReleaseTrace_frame memory s.core
      refine ⟨?_, [], prefetchReleaseTrace_held memory (by omega), ?_⟩
      · funext i
        show ((prefetchReleaseTrace memory s.core).cache i).host = (s.core.cache i).host
        rw [hcache]
      · intro new k
        unfold Gathered
        rw [List.append_nil]
        dsimp only
        rw [hcache]
        exact ⟨.inl, fun hk _ => hk.resolve_right id⟩
  | env henv => exact envStep_gathered henv hcount hover

/-- **Over a whole run** from a start to the stop. -/
theorem run_gathered {s s' : System M κ ι} {es : List (Event M κ ι)} {c : κ}
    {startMarker : TraceMarker} (hinv : Inv s) (hc : s.clients c = .tracing startMarker)
    (hquiet : ∀ marker plan, .stop c marker plan ∉ es) (h : run step s es = some s')
    (hover : s'.core.trace.overflow = false) :
    s'.core.hosts = s.core.hosts ∧
      ∃ new', Appends s.core.trace s'.core.trace new' ∧ ∀ new k,
        (Gathered (new ++ new') s'.core k →
          Gathered new s.core k ∨ ∃ e ∈ es, e.Touches s.core.hosts k) ∧
        ((Gathered new s.core k ∨ ∃ e ∈ es, e.Touches s.core.hosts k) →
          (∀ e ∈ es, ¬ e.SwapsOut s.core.hosts k) → Gathered (new ++ new') s'.core k) := by
  induction es generalizing s with
  | nil =>
      cases h
      refine ⟨rfl, [], .refl _, ?_⟩
      intro new k
      rw [List.append_nil]
      refine ⟨.inl, ?_⟩
      rintro (hk | ⟨e, he, -⟩) -
      · exact hk
      · cases he
  | cons e es ih =>
      obtain ⟨s₁, hstep, hrun⟩ := run_cons_eq_some.1 h
      have hne : ∀ marker plan, e ≠ .stop c marker plan := by
        rintro marker plan rfl
        exact hquiet marker plan List.mem_cons_self
      have hc₁ := step_tracing hinv.clearing hc hne hstep
      obtain ⟨hhosts₂, new₂, hnew₂, hgathered₂⟩ := ih (step_inv hinv hstep) hc₁
        (fun marker plan hmem => hquiet marker plan (List.mem_cons_of_mem _ hmem)) hrun
      obtain ⟨hhosts₁, new₁, hnew₁, hgathered₁⟩ :=
        step_gathered hinv hc hstep (hnew₂.overflow_false hover)
      refine ⟨hhosts₂.trans hhosts₁, new₁ ++ new₂, hnew₁.trans hnew₂, ?_⟩
      intro new k
      rw [← List.append_assoc]
      rw [hhosts₁] at hgathered₂
      simp only [List.mem_cons, exists_eq_or_imp, forall_eq_or_imp]
      obtain ⟨hsound₁, hcomplete₁⟩ := hgathered₁ new k
      obtain ⟨hsound₂, hcomplete₂⟩ := hgathered₂ (new ++ new₁) k
      constructor
      · intro hk
        rcases hsound₂ hk with hk | htouch
        · exact (hsound₁ hk).imp_right .inl
        · exact .inr (.inr htouch)
      · rintro (hk | hk | hk) ⟨hswap, hswaps⟩
        · exact hcomplete₂ (.inl (hcomplete₁ (.inl hk) hswap)) hswaps
        · exact hcomplete₂ (.inl (hcomplete₁ (.inr hk) hswap)) hswaps
        · exact hcomplete₂ (.inr hk) hswaps

/-! ## §4 — the trace of the first tracer -/

/-- The walk visits every file that has pages in the cache. -/
def CoreState.WalksAll (core : CoreState M ι) (plan : WalkPlan M ι) : Prop :=
  ∀ i, (core.cache i).pages ≠ [] → i ∈ plan.visited

omit [DecidableEq κ] [Fintype κ] in
/-- A walk that visits every file leaves no bit set. -/
theorem Effect.not_hasReferenced {recording : Prop} {a u : ℤ} {core core' : CoreState M ι}
    {plan : WalkPlan M ι} (h : Effect recording plan.visited a u core core')
    (hwalk : core.WalksAll plan) (k : PageId M) : ¬ ∃ i, (core'.cache i).HasReferenced k := by
  rintro ⟨i, hk⟩
  rw [h.cache i] at hk
  split at hk
  · exact not_hasReferenced_clear _ k hk
  · next hi =>
    have hempty : (core.cache i).pages = [] := by
      by_contra hne
      exact hi (hwalk i hne)
    simp [AddressSpace.HasReferenced, hempty, referencedIndices] at hk

/-- **The fragment of a client whose start found no tracer covers the pages touched between its start
and its stop, and no others**, as far as they are pages of files on block devices and did not leave
the cache as swap cache pages: whatever other clients start, continue, stop and release meanwhile. The
walks of this client's start and stop go over every file, and the buffer did not overflow. -/
theorem covers_touched {memory enabled : Bool} {traceSizeKb : BitVec 32}
    {cache : ι → AddressSpace M} {pre mid post : List (Event M κ ι)}
    {s s₁ s₂ s₃ s₄ : System M κ ι} {c : κ} {marker marker' startMarker endMarker : TraceMarker}
    {plan plan' : WalkPlan M ι}
    (hpre : run step (boot memory enabled traceSizeKb cache) pre = some s)
    (hzero : s.core.trace.tracersCount = 0)
    (hstart : step s (.start c marker plan) = some s₁)
    (hsuccess : s₁.clients c = .tracing startMarker) (hwalk : s.core.WalksAll plan)
    (hmid : run step s₁ mid = some s₂) (hquiet : ∀ marker plan, .stop c marker plan ∉ mid)
    (hstop : step s₂ (.stop c marker' plan') = some s₃)
    (hsuccess' : s₃.clients c = .stopped startMarker endMarker true)
    (hwalk' : s₂.core.WalksAll plan') (hover : s₃.core.trace.overflow = false)
    (hpost : run step s₃ post = some s₄) (hheld : ∀ memory, .release c memory ∉ post) :
    ∃ records, getPrefetchTraceFragment s₄.core.trace startMarker endMarker true =
        .ofRecords records ∧ ∀ k,
      (Covers records k → ∃ e ∈ mid, e.Touches s.core.hosts k) ∧
      ((∃ e ∈ mid, e.Touches s.core.hosts k) → (∀ e ∈ mid, ¬ e.SwapsOut s.core.hosts k) →
        Covers records k) := by
  have hinv := run_inv (inv_boot memory enabled traceSizeKb cache) hpre
  have hinv₁ := step_inv hinv hstart
  have hinv₂ := run_inv hinv₁ hmid
  have htracing := run_tracing hinv₁ hsuccess hquiet hmid
  obtain ⟨live, hlive⟩ := hinv.live
  obtain ⟨hmarker, hstarted⟩ := step_start_tracing hinv.clearing hstart hsuccess
  obtain ⟨-, rfl, hstopped⟩ := step_stop_stopped hinv₂.clearing htracing hstop hsuccess'
  rw [if_pos hzero] at hmarker
  subst hmarker
  -- the stop's walk records what the bits still hold
  obtain ⟨new₃, hnew₃, hgathered₃⟩ := hstopped.gathered hover
  have hover₂ : s₂.core.trace.overflow = false := hnew₃.overflow_false hover
  obtain ⟨hhosts, new₂, hnew₂, hgathered₂⟩ := run_gathered hinv₁ hsuccess hquiet hmid hover₂
  have hover₁ : s₁.core.trace.overflow = false := hnew₂.overflow_false hover₂
  obtain ⟨new₁, hnew₁, hcovers₁⟩ := hstarted.pages
  -- the start's walk leaves nothing gathered
  have hnothing : ∀ k, ¬ Gathered new₁ s₁.core k := by
    rintro k (hk | hk)
    · exact ((hcovers₁ hover₁ k).1 hk).1 hzero
    · exact hstarted.not_hasReferenced hwalk k hk
  have hcovers : ∀ k, Covers (new₁ ++ new₂ ++ new₃) k ↔ Gathered (new₁ ++ new₂) s₂.core k := by
    intro k
    rw [← hgathered₃]
    exact (or_iff_left (hstopped.not_hasReferenced hwalk' k)).symm
  have hholds : (s₃.clients c).holds := by
    rw [hsuccess']
    rfl
  obtain ⟨more, hmore⟩ := run_appends (step_inv hinv₂ hstop) hholds hheld hpost
  refine ⟨new₁ ++ new₂ ++ new₃, ?_, ?_⟩
  · exact ((hnew₁.trans hnew₂).trans hnew₃).fragment hlive hmore
  · intro k
    rw [hcovers k]
    obtain ⟨hsound, hcomplete⟩ := hgathered₂ new₁ k
    rw [hstarted.hosts] at hsound hcomplete
    exact ⟨fun hk => (hsound hk).resolve_left (hnothing k), fun hk => hcomplete (.inr hk)⟩

/-- A page touched while a client traced is in its fragment. -/
theorem covers_touched_sample : ∃ s₁ s₂ s₃ : System .bits32 Bool Unit,
    step (boot true true 256 sampleCache) (.start false ⟨0, 0⟩ { order := [()] }) = some s₁ ∧
    run step s₁ [.env (.touch () 3)] = some s₂ ∧
    step s₂ (.stop false ⟨0, 0⟩ { order := [()] }) = some s₃ ∧
    ∃ records, getPrefetchTraceFragment s₃.core.trace ⟨0, 1⟩ ⟨32, 1⟩ true = .ofRecords records ∧
      Covers records ⟨8, 7, 3⟩ := by
  refine ⟨_, _, _, rfl, rfl, rfl, ?_⟩
  obtain ⟨records, hget, hcovers⟩ := covers_touched
    (rfl : run step (boot true true 256 sampleCache : System .bits32 Bool Unit) [] = some _) rfl
    (rfl : step _ (.start false ⟨0, 0⟩ { order := [()] }) = some _)
    (by decide : _ = Client.tracing ⟨0, 1⟩) (fun i _ => List.mem_singleton.2 rfl)
    (rfl : run step _ [.env (.touch () 3)] = some _) (by simp)
    (rfl : step _ (.stop false ⟨0, 0⟩ { order := [()] }) = some _)
    (by decide : _ = Client.stopped ⟨0, 1⟩ ⟨32, 1⟩ true) (fun i _ => List.mem_singleton.2 rfl)
    (by decide) (rfl : run step _ [] = some _) (by simp)
  refine ⟨records, hget, (hcovers ⟨8, 7, 3⟩).2 ?_ ?_⟩
  · exact ⟨_, List.mem_singleton.2 rfl, rfl, rfl⟩
  · rintro e he hswap
    rw [List.mem_singleton.1 he] at hswap
    exact hswap

theorem onePage_sorted :
    [({ index := 3 } : Page .bits32)].Pairwise (fun p q => p.index.toNat < q.index.toNat) := by
  decide

theorem onePage_index_lt :
    ∀ p ∈ [({ index := 3 } : Page .bits32)], p.index.toNat + 1 < 2 ^ Machine.bits32.bits := by
  decide

/-- The same file without a block device behind it. -/
def devicelessCache : Unit → AddressSpace .bits32 := fun _ =>
  { host := some ⟨none, 7⟩
    pages := [{ index := 3 }]
    sorted := onePage_sorted
    index_lt := onePage_index_lt }

/-- A page of such a file is touched between the start of the only client and its stop, every walk
goes over every file, nothing fails and nothing overflows: the fragment is empty. -/
theorem deviceless_not_covered : ∃ s₁ s₂ s₃ : System .bits32 Bool Unit,
    step (boot true true 256 devicelessCache) (.start false ⟨0, 0⟩ { order := [()] }) = some s₁ ∧
    s₁.clients false = .tracing ⟨0, 1⟩ ∧
    run step s₁ [.env (.touch () 3)] = some s₂ ∧
    step s₂ (.stop false ⟨0, 0⟩ { order := [()] }) = some s₃ ∧
    s₃.clients false = .stopped ⟨0, 1⟩ ⟨0, 1⟩ true ∧ s₃.core.trace.overflow = false ∧
    getPrefetchTraceFragment s₃.core.trace ⟨0, 1⟩ ⟨0, 1⟩ true = .ofRecords [] :=
  ⟨_, _, _, rfl, by decide, rfl, rfl, by decide, by decide, by decide⟩

end Prefetch.Core
