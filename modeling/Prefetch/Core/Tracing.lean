/-
# Prefetch.Core.Tracing — the walk over all inodes and the calls tracing clients make

The rest of the tracing half of `prefetch_core.c`: `add_referenced_page_range` and the release hook,
which put pages into the trace, `walk_pages` with its three commands, and the four calls a client
makes. Outcomes the code does not decide come with a call as a `WalkPlan`: whether the allocations of
the walk succeed, which inodes the walk visits in which order, how lookups split their pages, what the
operations on the referenced bit return.
-/
import Prefetch.Core.PageCache

namespace Prefetch.Core

variable {M : Machine} {ι : Type*}

/-! ## §1 — the state of the module -/

/-- The globals of `prefetch_core.c`, and the page cache; `ι` names the inodes. -/
structure CoreState (M : Machine) (ι : Type*) where
  trace : PrefetchTrace M := {}
  clearingInProgress : Bool := false
  enabled : Bool := true
  traceSizeKb : BitVec 32 := 256
  cache : ι → AddressSpace M

/-- `enum tracing_command` -/
inductive TracingCommand where
  | startTracing
  | stopTracing
  | continueTracing
  deriving DecidableEq, Repr

/-- How a walk meets the rest of the kernel: whether `inode_walk_session_create` and the page for
`ivec.inodes` get their memory, the inodes visited, how many pages each lookup returns, and what the operations
on the referenced bit return for one that is set. -/
structure WalkPlan (M : Machine) (ι : Type*) where
  session : Bool := true
  ivec : Bool := true
  order : List ι
  batch : ι → BitVec M.bits → ℕ := fun _ _ => 13
  ops : BitOps := .x86

/-- The inodes a walk visits: without `ivec.inodes` there are none to go over. -/
def WalkPlan.visited (plan : WalkPlan M ι) : List ι := if plan.ivec then plan.order else []

/-- What a call returns: its value, the caller's marker and the module. -/
structure CallResult (M : Machine) (ι : Type*) where
  ret : ℤ
  marker : TraceMarker
  core : CoreState M ι

/-! ## §2 — pages put into the trace -/

/-- `add_referenced_page_range`, less its statistics. -/
def addReferencedPageRange (clearingInProgress : Bool) (host : Option (Inode M))
    (t : PrefetchTrace M) (start len : BitVec M.bits) : PrefetchTrace M :=
  if clearingInProgress then t
  else match host with
    | some ⟨some device, iIno⟩ => prefetchTraceAdd t device iIno start len
    | _ => t

/-- `prefetch_add_page_to_trace`, which is all of `prefetch_page_release_hook`. -/
def prefetchAddPageToTrace (t : PrefetchTrace M) (host : Option (Inode M)) (page : Page M)
    (pageSwapCache : Bool) : PrefetchTrace M :=
  if t.tracersCount ≤ 0 then t
  else if ¬ page.referenced then t
  else if pageSwapCache then t
  else
    let t := { t with pageReleaseTraced := t.pageReleaseTraced + 1 }
    match host with
    | some ⟨some device, iIno⟩ => prefetchTraceAdd t device iIno page.index 1
    | _ => t

section Calls

variable [DecidableEq ι]

/-- `show_inode` -/
def showInode (plan : WalkPlan M ι) (core : CoreState M ι) (i : ι) : CoreState M ι :=
  let walked := walkFileCache plan.ops
    (addReferencedPageRange core.clearingInProgress (core.cache i).host) (plan.batch i)
    core.trace (core.cache i)
  { core with cache := Function.update core.cache i walked.1, trace := walked.2 }

/-- The walk from `inode_walk_start` to `inode_walk_stop`. -/
def walkInodes (plan : WalkPlan M ι) (core : CoreState M ι) : CoreState M ι :=
  plan.visited.foldl (showInode plan) core

/-! ## §3 — `walk_pages` and the calls of clients -/

/-- Adding to `tracers_count`. -/
def CoreState.addTracers (core : CoreState M ι) (n : ℤ) : CoreState M ι :=
  { core with trace := { core.trace with tracersCount := core.trace.tracersCount + n } }

/-- Adding to `trace_users`. -/
def CoreState.addUsers (core : CoreState M ι) (n : ℤ) : CoreState M ι :=
  { core with trace := { core.trace with traceUsers := core.trace.traceUsers + n } }

/-- The overflow has been reported. -/
def CoreState.reportOverflow (core : CoreState M ι) : CoreState M ι :=
  { core with trace := { core.trace with overflowReported := true } }

/-- The part of `walk_pages` under `inode_lock`. -/
def walkLocked (plan : WalkPlan M ι) (marker : TraceMarker) (core : CoreState M ι) :
    TracingCommand → CallResult M ι
  | .startTracing =>
      let core := core.addTracers 1
      if core.trace.tracersCount = 1 then
        -- the count was 0, this is the first tracer, so just clear bits
        let walked := walkInodes plan { core with clearingInProgress := true }
        ⟨0, getTraceMarker core.trace, { walked with clearingInProgress := false }⟩
      else ⟨0, marker, walkInodes plan core⟩
  | .stopTracing =>
      let core := (walkInodes plan core).addTracers (-1)
      ⟨0, getTraceMarker core.trace, core⟩
  | .continueTracing =>
      let core := walkInodes plan core
      ⟨0, getTraceMarker core.trace, core⟩

/-- `walk_pages` -/
def walkPages (command : TracingCommand) (plan : WalkPlan M ι) (marker : TraceMarker)
    (core : CoreState M ι) : CallResult M ι :=
  if core.trace.overflow ∧ ¬ core.trace.overflowReported then
    ⟨-ENOSPC, marker,
      if command = .stopTracing then core.reportOverflow.addTracers (-1) else core.reportOverflow⟩
  else if ¬ plan.session then ⟨-ENOMEM, marker, core⟩
  else walkLocked plan marker core command

/-- `prefetch_start_trace` -/
def prefetchStartTrace (plan : WalkPlan M ι) (marker : TraceMarker) (core : CoreState M ι) :
    CallResult M ι :=
  if ¬ core.enabled then ⟨-ENODEV, marker, core⟩
  else
    let r := walkPages .startTracing plan marker core
    if r.ret ≥ 0 then { r with core := r.core.addUsers 1 } else r

/-- `prefetch_continue_trace` -/
def prefetchContinueTrace (plan : WalkPlan M ι) (marker : TraceMarker) (core : CoreState M ι) :
    CallResult M ι :=
  if ¬ core.enabled then ⟨-ENODEV, marker, core⟩
  else walkPages .continueTracing plan marker core

/-- `prefetch_stop_trace` -/
def prefetchStopTrace (plan : WalkPlan M ι) (marker : TraceMarker) (core : CoreState M ι) :
    CallResult M ι :=
  -- trace might have been started when module was enabled
  if ¬ core.enabled then ⟨-ENODEV, marker, core.addTracers (-1)⟩
  else walkPages .stopTracing plan marker core

/-- `prefetch_release_trace`; `memory` is for the buffer `clear_trace` may have to allocate. -/
def prefetchReleaseTrace (memory : Bool) (core : CoreState M ι) : CoreState M ι :=
  let core := core.addUsers (-1)
  if core.trace.traceUsers = 0 then
    { core with trace := clearTrace core.traceSizeKb memory core.trace }
  else core

/-- `prefetch_core_init` -/
def prefetchCoreInit (memory : Bool) (core : CoreState M ι) : CoreState M ι :=
  { core with trace := clearTrace core.traceSizeKb memory core.trace }

/-! ## §4 — what the rest of the kernel does -/

/-- Events around the module: a page is touched, comes into the cache or leaves it, and a write to
the control file in `/proc`. -/
inductive EnvEvent (M : Machine) (ι : Type*) where
  | touch (i : ι) (index : BitVec M.bits)
  | insert (i : ι) (index : BitVec M.bits)
  | evict (i : ι) (index : BitVec M.bits) (pageSwapCache : Bool)
  | control (enabled : Bool)

/-- One event; a page that is not cached cannot be touched or evicted. -/
def envStep (core : CoreState M ι) : EnvEvent M ι → Option (CoreState M ι)
  | .touch i index =>
      if (core.cache i).find index = none then none
      else some { core with
        cache := Function.update core.cache i ((core.cache i).setReferenced index true) }
  | .insert i index =>
      if h : index.toNat + 1 < 2 ^ M.bits then
        if (core.cache i).find index = none then
          some { core with cache := Function.update core.cache i ((core.cache i).insert index h) }
        else none
      else none
  | .evict i index pageSwapCache =>
      -- `__remove_from_page_cache` calls the hook before the page leaves the tree
      match (core.cache i).find index with
      | none => none
      | some page => some { core with
          trace := prefetchAddPageToTrace core.trace (core.cache i).host page pageSwapCache
          cache := Function.update core.cache i ((core.cache i).remove index) }
  | .control enabled => some { core with enabled := enabled }

end Calls

end Prefetch.Core
