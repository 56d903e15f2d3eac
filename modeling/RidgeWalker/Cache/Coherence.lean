import RidgeWalker.Cache.Loader
import RidgeWalker.Dataflow.Execution

/-!
# Coherence of the degree-aware cache

The loader, the memory engine, the two duplicators and the two joins, wired as in the
configuration of the metapath application.  Updates travel from `vcache_update` back to the
loader, which closes a loop.

Main results:

- Theorem `cacheUpdate_coherent`: every update on its way to the cache carries what is in
  memory.
- Theorem `cache_coherence`: the k-th descriptor sent is that of the k-th request.
-/

namespace RidgeWalker.Cache

open Dataflow Network Memory

/-! ## The network -/

/-- A duplicated stream and its two copies. -/
inductive Copied where
  | whole
  | copy (o : Fin 2)
deriving DecidableEq

/-- The streams of every sort. -/
abbrev CacheStream : CacheSort → Type
  | .vertex => Unit
  | .mem .cmd => Unit
  | .mem .ctrl => Empty
  | .mem .data => Copied
  | .state => Copied
  | .update => Unit
  | .descriptor => Unit

instance : (s : CacheSort) → DecidableEq (CacheStream s)
  | .vertex => inferInstanceAs (DecidableEq Unit)
  | .mem .cmd => inferInstanceAs (DecidableEq Unit)
  | .mem .ctrl => inferInstanceAs (DecidableEq Empty)
  | .mem .data => inferInstanceAs (DecidableEq Copied)
  | .state => inferInstanceAs (DecidableEq Copied)
  | .update => inferInstanceAs (DecidableEq Unit)
  | .descriptor => inferInstanceAs (DecidableEq Unit)

/-- The requests. -/
abbrev input : Chan CacheStream := ⟨.vertex, ()⟩

/-- The commands to the memory engine. -/
abbrev vertexCmd : Chan CacheStream := ⟨.mem .cmd, ()⟩

/-- The responses, before and after they are duplicated. -/
abbrev inData (x : Copied) : Chan CacheStream := ⟨.mem .data, x⟩

/-- The descriptors sent past the engine, before and after they are duplicated. -/
abbrev inVds (x : Copied) : Chan CacheStream := ⟨.state, x⟩

abbrev cacheUpdate : Chan CacheStream := ⟨.update, ()⟩

abbrev outVd : Chan CacheStream := ⟨.descriptor, ()⟩

/-- The kernels around the cache. -/
inductive CacheProc where
  | vertexLoader
  | vcacheMem
  | duplicateData
  | duplicateVds
  | vcacheVd
  | vcacheUpdate
deriving DecidableEq

instance : Fintype CacheProc :=
  ⟨{.vertexLoader, .vcacheMem, .duplicateData, .duplicateVds, .vcacheVd, .vcacheUpdate},
    fun x => by cases x <;> decide⟩

/-- `vertex_loader`. -/
def vertexLoader : Call CacheStream CacheWord where
  In := LoaderIn
  Out := LoaderOut
  src i := ⟨i.sort, match i with
    | .input => ()
    | .cacheUpdate => ()⟩
  dst o := ⟨o.sort, match o with
    | .output => Copied.whole
    | .vertexCmd => ()⟩
  kernel := vertexLoaderKernel

/-- `vcache_mem`. -/
def vcacheMem (data : BitVec 32 → BitVec 64) : Call CacheStream CacheWord where
  In := Unit
  Out := Unit
  src _ := vertexCmd
  dst _ := inData .whole
  kernel := memAccessKernel data 0

/-- `stream_duplicate_nb` in `vcache_duplicate`, on the responses. -/
def duplicateData : Call CacheStream CacheWord where
  In := Unit
  Out := Fin 2
  src _ := inData .whole
  dst o := inData (.copy o)
  kernel := streamDuplicateNbKernel (AxiPkg MemAccessItem)

/-- `stream_duplicate_nb` in `vcache_duplicate`, on the descriptors. -/
def duplicateVds : Call CacheStream CacheWord where
  In := Unit
  Out := Fin 2
  src _ := inVds .whole
  dst o := inVds (.copy o)
  kernel := streamDuplicateNbKernel (AxiPkg VertexDescriptorWithState)

/-- The sorts of the streams that the joins read: `in_data` and `in_vds`. -/
abbrev joinSort : JoinIn → CacheSort
  | .inData => .mem .data
  | .inState => .state

/-- The streams that the joins read. -/
abbrev joinSrc (o : Fin 2) (i : JoinIn) : Chan CacheStream :=
  ⟨joinSort i, match i with
    | .inData => Copied.copy o
    | .inState => Copied.copy o⟩

/-- `vcache_vd`. -/
def vcacheVdCall : Call CacheStream CacheWord where
  In := JoinIn
  Out := Unit
  src := joinSrc 0
  dst _ := outVd
  kernel := joinKernel CacheWord joinSort fun dataPkg vdsPkg => some (vcacheVd dataPkg vdsPkg)

/-- `vcache_update`. -/
def vcacheUpdateCall : Call CacheStream CacheWord where
  In := JoinIn
  Out := Unit
  src := joinSrc 1
  dst _ := cacheUpdate
  kernel := joinKernel CacheWord joinSort vcacheUpdate

/-- The loader, the memory engine and the kernels that join its responses. -/
def cacheNet (data : BitVec 32 → BitVec 64) (depth : Chan CacheStream → ℕ) :
    Network CacheProc CacheStream CacheWord where
  node
    | .vertexLoader => vertexLoader
    | .vcacheMem => vcacheMem data
    | .duplicateData => duplicateData
    | .duplicateVds => duplicateVds
    | .vcacheVd => vcacheVdCall
    | .vcacheUpdate => vcacheUpdateCall
  depth := depth

variable {data : BitVec 32 → BitVec 64} {depth : Chan CacheStream → ℕ}

theorem cacheNet_pointToPoint : (cacheNet data depth).PointToPoint := by
  constructor
  · rintro ⟨p, i⟩ ⟨q, j⟩ h
    cases p <;> cases q <;> cases i <;> cases j <;> cases h <;> rfl
  · rintro ⟨p, i⟩ ⟨q, j⟩ h
    cases p <;> cases q <;> cases i <;> cases j <;> cases h <;> rfl

/-! ## What the streams carry -/

section Account

variable {s : (cacheNet data depth).State} (hs : (cacheNet data depth).Reachable s)
include hs

/-- The responses answer the commands in order, also after the engine has been restarted. -/
theorem inData_written :
    s.written (inData .whole) ++ (MemAccessRegs.owed (s.regs .vcacheMem)).map (response data 0) =
      (s.taken vertexCmd).map (response data 0) :=
  memAccessKernel_path (hs.path cacheNet_pointToPoint .vcacheMem)

theorem inData_copy (o : Fin 2) :
    s.written (inData (.copy o)) ++ DuplicateRegs.pending o (s.regs .duplicateData) =
      s.taken (inData .whole) :=
  streamDuplicateNbKernel_path (hs.path cacheNet_pointToPoint .duplicateData) o

theorem inVds_copy (o : Fin 2) :
    s.written (inVds (.copy o)) ++ DuplicateRegs.pending o (s.regs .duplicateVds) =
      s.taken (inVds .whole) :=
  streamDuplicateNbKernel_path (hs.path cacheNet_pointToPoint .duplicateVds) o

theorem outVd_written : ∃ done,
    Joining (fun dataPkg vdsPkg => some (vcacheVd dataPkg vdsPkg)) (s.regs .vcacheVd)
      (fun i => s.taken (joinSrc 0 i)) (fun _ => s.written outVd) done :=
  joinKernel_path (hs.path cacheNet_pointToPoint .vcacheVd)

theorem cacheUpdate_written : ∃ done,
    Joining vcacheUpdate (s.regs .vcacheUpdate)
      (fun i => s.taken (joinSrc 1 i)) (fun _ => s.written cacheUpdate) done :=
  joinKernel_path (hs.path cacheNet_pointToPoint .vcacheUpdate)

/-- Requests that the loader has served account for both streams that a join reads. -/
theorem joined_isPrefix {served : List Service} (hload : Loading data served (s.regs .vertexLoader)
      (fun i => s.taken (vertexLoader.src i)) (fun o => s.written (vertexLoader.dst o)))
    (o : Fin 2) :
    s.taken (inData (.copy o)) <+: served.map (fun x => response data 0 x.cmd) ∧
      s.taken (inVds (.copy o)) <+: served.map Service.vPkg := by
  have hcmd : s.written vertexCmd <+: served.map Service.cmd := ⟨_, hload.vertexCmd⟩
  have houtput : s.written (inVds .whole) <+: served.map Service.vPkg := ⟨_, hload.output⟩
  have hdata : s.written (inData .whole) <+: (s.taken vertexCmd).map (response data 0) :=
    ⟨_, inData_written hs⟩
  have hdataCopy : s.written (inData (.copy o)) <+: s.taken (inData .whole) :=
    ⟨_, inData_copy hs o⟩
  have hvdsCopy : s.written (inVds (.copy o)) <+: s.taken (inVds .whole) := ⟨_, inVds_copy hs o⟩
  constructor
  · have hresponses := ((s.taken_isPrefix vertexCmd).trans hcmd).map (response data 0)
    rw [List.map_map] at hresponses
    exact (((s.taken_isPrefix _).trans hdataCopy).trans (s.taken_isPrefix _)).trans
      (hdata.trans hresponses)
  · exact (((s.taken_isPrefix _).trans hvdsCopy).trans (s.taken_isPrefix _)).trans houtput

end Account

/-- Coherent updates read by the loader lead to coherent updates written to it. -/
theorem cacheUpdate_step (s : (cacheNet data depth).State) (hs : (cacheNet data depth).Reachable s)
    (hread : CoherentUpdates data (s.taken cacheUpdate)) :
    CoherentUpdates data (s.written cacheUpdate) := by
  obtain ⟨served, hload⟩ :=
    vertexLoaderKernel_path (hs.path cacheNet_pointToPoint .vertexLoader) hread
  obtain ⟨hdata, hvds⟩ := joined_isPrefix hs hload 1
  obtain ⟨done, hjoin⟩ := cacheUpdate_written hs
  have hall := hjoin.isPrefix hdata hvds
  intro cuPkg hcu
  have hmem := hall.subset hcu
  obtain ⟨x, hx, hsome⟩ := List.mem_filterMap.mp hmem
  rw [List.zip_map', List.mem_map] at hx
  obtain ⟨service, hservice, rfl⟩ := hx
  exact (hload.lawful service hservice).vcacheUpdate hsome

/-- Every update on its way to the cache, and every update that has reached it, carries what
is in memory. -/
theorem cacheUpdate_coherent {s : (cacheNet data depth).State}
    (hs : (cacheNet data depth).Reachable s) : CoherentUpdates data (s.written cacheUpdate) :=
  hs.feedback (c := cacheUpdate) cacheUpdate_step

/-- The descriptors sent are those of the requests, in order. -/
theorem outVd_isPrefix {s : (cacheNet data depth).State} (hs : (cacheNet data depth).Reachable s) :
    s.written outVd <+: (s.written input).map (descriptorOf data) := by
  have hread : CoherentUpdates data (s.taken cacheUpdate) := fun cuPkg hcu =>
    cacheUpdate_coherent hs cuPkg ((s.taken_isPrefix cacheUpdate).subset hcu)
  obtain ⟨served, hload⟩ :=
    vertexLoaderKernel_path (hs.path cacheNet_pointToPoint .vertexLoader) hread
  obtain ⟨hdata, hvds⟩ := joined_isPrefix hs hload 0
  obtain ⟨done, hjoin⟩ := outVd_written hs
  have hall := hjoin.isPrefix hdata hvds
  rw [filterMap_zip_some, List.zipWith_map, List.zipWith_self] at hall
  have hserved : served.map (fun x => vcacheVd (response data 0 x.cmd) x.vPkg) =
      (s.taken input).map (descriptorOf data) := by
    have hinput : s.taken input = served.map Service.nvPkg := hload.input
    rw [hinput, List.map_map]
    exact List.map_congr_left fun x hx => (hload.lawful x hx).vcacheVd
  rw [hserved] at hall
  exact hall.trans ((s.taken_isPrefix input).map _)

/-- For every memory content, every sequence of requests and every interleaving, the k-th
descriptor sent is that of the k-th request, whether the request was a hit, a miss or a dead
end. -/
theorem cache_coherence (data : BitVec 32 → BitVec 64) (depth : Chan CacheStream → ℕ)
    {s : (cacheNet data depth).State} (hs : (cacheNet data depth).Reachable s) {k : ℕ}
    {vdPkg : AxiPkg VertexDescriptor} (hk : (s.written outVd)[k]? = some vdPkg) :
    ((s.written input)[k]?).map (descriptorOf data) = some vdPkg := by
  obtain ⟨hlt, rfl⟩ := List.getElem?_eq_some_iff.mp hk
  rw [← List.getElem?_map]
  exact List.prefix_iff_getElem?.mp (outVd_isPrefix hs) k hlt

/-- A memory in which every vertex has degree 3. -/
def cubic (addr : BitVec 32) : BitVec 64 := 0x300000000#64 + addr.setWidth 64

/-- The network on that memory, on streams that hold a single word. -/
abbrev tightNet : Network CacheProc CacheStream CacheWord := cacheNet cubic fun _ => 1

/-- The loader serves a request for vertex 5, and the response reaches both joins. -/
def requesting (last : Bool) : List tightNet.Action :=
  .put input ⟨5, last⟩ :: List.replicate 3 (.fire .vertexLoader none) ++
    List.replicate 3 (.fire .vcacheMem none) ++ List.replicate 3 (.fire .duplicateData none) ++
      List.replicate 3 (.fire .duplicateVds none) ++ List.replicate 3 (.fire .vcacheVd none) ++
        List.replicate 2 (.fire .vcacheUpdate none)

/-- The first request misses, the update reaches the cache, and the second request hits. -/
def missThenHit : List tightNet.Action :=
  requesting false ++ [.fire .vcacheUpdate none, .fire .vertexLoader none, .take outVd] ++
    requesting true

/-- A miss and a hit on the same vertex are answered alike. -/
theorem cache_coherence_hit :
    ∃ s : tightNet.State,
      (s.written vertexCmd).map MemAccessCmd.dummyFlag = [false, true] ∧
      (s.written outVd)[1]? = some ⟨⟨5, 3⟩, true⟩ ∧
      ((s.written input)[1]?).map (descriptorOf cubic) = some ⟨⟨5, 3⟩, true⟩ := by
  obtain ⟨tr, s, hs⟩ : ∃ tr s, Network.execute (fun _ _ => True) missThenHit [] tightNet.init =
      some (tr, s) := ⟨_, _, rfl⟩
  have hr : tightNet.Reachable s := ⟨tr, (Network.execute_run .nil hs).run⟩
  have hout : (s.written outVd)[1]? = some ⟨⟨5, 3⟩, true⟩ := by
    cases hs
    decide +kernel
  refine ⟨s, ?_, hout, cache_coherence cubic (fun _ => 1) hr hout⟩
  cases hs
  decide +kernel

end RidgeWalker.Cache
