import RidgeWalker.Bits.Ranges
import RidgeWalker.Memory.Engine
import RidgeWalker.Memory.Join

/-!
# The kernels of the degree-aware cache

`vertex_loader` answers a request for a vertex from its cache or sends it to memory,
`vcache_vd` and `vcache_update` join the responses with what the loader sent past the memory
engine: the one sends the descriptors on, the other sends those of greater degree back to the
cache.

Main results:

- Theorem `VCache.lookup_served`: a coherent cache serves a request for what is in memory.
- Theorem `vertexLoaderKernel_path`: as long as the updates it reads are coherent, the loader
  serves its requests in order.
- Theorems `Served.vcacheVd` and `Served.vcacheUpdate`: what the two joins make of a served
  request.
-/

namespace RidgeWalker.Cache

open Dataflow Bits Memory

/-! ## Descriptors -/

/-- `vertex_descriptor_t`. -/
structure VertexDescriptor where
  start : BitVec 32
  size : BitVec 32
deriving DecidableEq

/-- The descriptor that a stored word holds. -/
def VertexDescriptor.ofWord (word : BitVec 64) : VertexDescriptor where
  start := range word 0 32
  size := range word 32 32

/-- `vertex_descriptor_with_state_t`. -/
structure VertexDescriptorWithState where
  start : BitVec 32
  size : BitVec 32
  state : BitVec 16
deriving DecidableEq

/-- `VDS_INVALID`. -/
def vdsInvalid : BitVec 16 := 0x8000#16

/-- `vertex_descriptor_update_t`. -/
structure VertexDescriptorUpdate where
  start : BitVec 32
  size : BitVec 32
  v : BitVec 32
deriving DecidableEq

/-- The dead-end bit of a requested vertex. -/
def deadEnd (v : BitVec 64) : Bool := v &&& 0x80000000#64 = 0x80000000#64

/-- The descriptor of a requested vertex: that in memory, or an empty one at a dead end. -/
def descriptorOf (data : BitVec 32 → BitVec 64) (nvPkg : AxiPkg (BitVec 64)) :
    AxiPkg VertexDescriptor where
  data :=
    if deadEnd nvPkg.data then ⟨nvPkg.data.setWidth 32, 0⟩
    else .ofWord (data (nvPkg.data.setWidth 32))
  last := nvPkg.last

/-! ## The cache -/

/-- The arrays `tag` and `cache`. -/
structure VCache where
  tag : BitVec 32 → BitVec 64
  cache : BitVec 32 → VertexDescriptor

/-- The arrays after they are cleared. -/
def VCache.clear : VCache := ⟨fun _ => 0, fun _ => ⟨0, 0⟩⟩

/-- `V_CACHE_TAG`. -/
def vCacheTag {n : ℕ} (v : BitVec n) : BitVec 32 := (v &&& BitVec.ofNat n 0xffff).setWidth 32

/-- Whether the slot of a vertex holds its descriptor. -/
def VCache.hit (arrays : VCache) (v : BitVec 64) : Bool :=
  let tagValue := arrays.tag (vCacheTag v)
  (range tagValue 0 32).setWidth 64 = v && range tagValue 63 1 = 1#1

/-- Whether a request is to be answered by memory. -/
def VCache.memAccessFlag (arrays : VCache) (v : BitVec 64) : Bool :=
  !deadEnd v && !arrays.hit v

/-- The descriptor that is sent past the memory engine. -/
def VCache.lookup (arrays : VCache) (v : BitVec 64) : VertexDescriptorWithState :=
  let vd := arrays.cache (vCacheTag v)
  if deadEnd v then ⟨v.setWidth 32, 0, 0⟩
  else if arrays.hit v then ⟨vd.start, vd.size, 0⟩
  else ⟨v.setWidth 32, vd.size, vdsInvalid⟩

/-- The command for a request. -/
def loaderCmd (nvPkg : AxiPkg (BitVec 64)) (memAccessFlag : Bool) : MemAccessCmd where
  addr := nvPkg.data
  state :=
    let cmdValue : BitVec 32 := if nvPkg.last then 0 ||| mmStateMaskEnd else 0
    if memAccessFlag then cmdValue else cmdValue ||| mmStateMaskDummy

/-- The arrays after an update. -/
def VCache.update (arrays : VCache) (item : VertexDescriptorUpdate) : VCache where
  tag := Function.update arrays.tag (vCacheTag item.v) (setRange (setRange (0 : BitVec 64) 63 1#1) 0
    item.v)
  cache := Function.update arrays.cache (vCacheTag item.v) ⟨item.start, item.size⟩

/-- An update that carries what is in memory. -/
def VertexDescriptorUpdate.Coherent (data : BitVec 32 → BitVec 64)
    (item : VertexDescriptorUpdate) : Prop :=
  VertexDescriptor.mk item.start item.size = .ofWord (data item.v)

/-- Every valid slot holds the descriptor of the vertex in its tag. -/
def VCache.Coherent (data : BitVec 32 → BitVec 64) (arrays : VCache) : Prop :=
  ∀ tagId, range (arrays.tag tagId) 63 1 = 1#1 →
    arrays.cache tagId = .ofWord (data (range (arrays.tag tagId) 0 32))

theorem VCache.clear_coherent (data : BitVec 32 → BitVec 64) : VCache.clear.Coherent data := by
  intro tagId hvalid
  exact absurd hvalid (by simp only [VCache.clear]; decide)

/-- Coherent updates keep the arrays coherent, whichever slot they overwrite. -/
theorem VCache.Coherent.update {data : BitVec 32 → BitVec 64} {arrays : VCache}
    (h : arrays.Coherent data) {item : VertexDescriptorUpdate} (hitem : item.Coherent data) :
    (arrays.update item).Coherent data := by
  intro tagId
  simp only [VCache.update]
  by_cases hslot : tagId = vCacheTag item.v
  · subst hslot
    intro _
    rw [Function.update_self, Function.update_self, range_setRange_self _ _ (by decide)]
    exact hitem
  · rw [Function.update_of_ne hslot, Function.update_of_ne hslot]
    exact h tagId

/-- What the loader sends for a request: a dummy command and the descriptor itself, or a real
command and the vertex. -/
inductive Served (data : BitVec 32 → BitVec 64) :
    AxiPkg (BitVec 64) → MemAccessCmd → AxiPkg VertexDescriptorWithState → Prop where
  | known {nvPkg} (vd : VertexDescriptor) (h : vd = (descriptorOf data nvPkg).data) :
      Served data nvPkg (loaderCmd nvPkg false) ⟨⟨vd.start, vd.size, 0⟩, nvPkg.last⟩
  | missed {nvPkg} (size : BitVec 32) (h : deadEnd nvPkg.data = false) :
      Served data nvPkg (loaderCmd nvPkg true)
        ⟨⟨nvPkg.data.setWidth 32, size, vdsInvalid⟩, nvPkg.last⟩

/-- A coherent cache serves a request for what is in memory. -/
theorem VCache.Coherent.lookup_served {data : BitVec 32 → BitVec 64} {arrays : VCache}
    (h : arrays.Coherent data) (nvPkg : AxiPkg (BitVec 64)) :
    Served data nvPkg (loaderCmd nvPkg (arrays.memAccessFlag nvPkg.data))
      ⟨arrays.lookup nvPkg.data, nvPkg.last⟩ := by
  unfold VCache.lookup VCache.memAccessFlag
  cases hdead : deadEnd nvPkg.data with
  | true => exact .known ⟨nvPkg.data.setWidth 32, 0⟩ (by simp [descriptorOf, hdead])
  | false =>
      cases hhit : arrays.hit nvPkg.data with
      | false => exact .missed _ hdead
      | true =>
          refine .known (arrays.cache (vCacheTag nvPkg.data)) ?_
          simp only [VCache.hit, Bool.and_eq_true, decide_eq_true_eq] at hhit
          obtain ⟨htag, hvalid⟩ := hhit
          have hv : range (arrays.tag (vCacheTag nvPkg.data)) 0 32 = nvPkg.data.setWidth 32 := by
            simpa using congrArg (BitVec.setWidth 32) htag
          rw [h _ hvalid, hv]
          simp [descriptorOf, hdead]

/-! ## `vertex_loader` -/

/-- The streams that `vertex_loader` reads. -/
inductive LoaderIn where
  | input
  | cacheUpdate
deriving DecidableEq

instance : Fintype LoaderIn := ⟨{.input, .cacheUpdate}, fun x => by cases x <;> decide⟩

/-- The streams that `vertex_loader` writes. -/
inductive LoaderOut where
  | output
  | vertexCmd
deriving DecidableEq

instance : Fintype LoaderOut := ⟨{.output, .vertexCmd}, fun x => by cases x <;> decide⟩

/-- The sorts of streams around the cache. -/
inductive CacheSort where
  | vertex
  | mem (s : MemSort)
  | state
  | update
  | descriptor
deriving DecidableEq

/-- The words of every sort. -/
abbrev CacheWord : CacheSort → Type
  | .vertex => AxiPkg (BitVec 64)
  | .mem s => MemWord s
  | .state => AxiPkg VertexDescriptorWithState
  | .update => AxiPkg VertexDescriptorUpdate
  | .descriptor => AxiPkg VertexDescriptor

abbrev LoaderIn.sort : LoaderIn → CacheSort
  | .input => .vertex
  | .cacheUpdate => .update

abbrev LoaderOut.sort : LoaderOut → CacheSort
  | .output => .state
  | .vertexCmd => .mem .cmd

/-- Registers of `vertex_loader`. -/
inductive LoaderRegs where
  | poll (arrays : VCache)
  | writeCmd (arrays : VCache) (cmd : MemAccessCmd) (vPkg : AxiPkg VertexDescriptorWithState)
  | writeOutput (arrays : VCache) (vPkg : AxiPkg VertexDescriptorWithState)
  | update (arrays : VCache)
  | emptyStream (endCounter : ℕ)

/-- The end of a round of `empty_stream`. -/
def LoaderRegs.count (endCounter : ℕ) : LoaderRegs :=
  if 4095 ≤ endCounter then .poll .clear else .emptyStream endCounter

/-- The loop of `vertex_loader`.  After the last request it drains the updates until none has
come for a while, and clears its arrays. -/
def vertexLoaderKernel :
    Kernel (fun i : LoaderIn => CacheWord i.sort) (fun o : LoaderOut => CacheWord o.sort) where
  σ := LoaderRegs
  Ω := Empty
  start := .poll .clear
  op
    | .poll arrays => .readNb .input fun
        | some nvPkg => .writeCmd arrays (loaderCmd nvPkg (arrays.memAccessFlag nvPkg.data))
            ⟨arrays.lookup nvPkg.data, nvPkg.last⟩
        | none => .update arrays
    | .writeCmd arrays cmd vPkg => .write .vertexCmd cmd (.writeOutput arrays vPkg)
    | .writeOutput arrays vPkg => .write .output vPkg
        (if vPkg.last then .emptyStream 0 else .update arrays)
    | .update arrays => .readNb .cacheUpdate fun
        | some cuPkg => .poll (arrays.update cuPkg.data)
        | none => .poll arrays
    | .emptyStream endCounter => .readNb .cacheUpdate fun
        | some _ => .count 0
        | none => .count (endCounter + 1)

/-- The command that is still to be sent. -/
def LoaderRegs.owedCmd : LoaderRegs → List MemAccessCmd
  | .writeCmd _ cmd _ => [cmd]
  | _ => []

/-- The descriptor that is still to be sent past the memory engine. -/
def LoaderRegs.owedOutput : LoaderRegs → List (AxiPkg VertexDescriptorWithState)
  | .writeCmd _ _ vPkg => [vPkg]
  | .writeOutput _ vPkg => [vPkg]
  | _ => []

/-- The arrays in the registers are coherent. -/
def LoaderRegs.Coherent (data : BitVec 32 → BitVec 64) : LoaderRegs → Prop
  | .poll arrays | .writeCmd arrays _ _ | .writeOutput arrays _ | .update arrays =>
      arrays.Coherent data
  | .emptyStream _ => True

/-- While the updates are drained nothing is owed and no array is in use. -/
theorem LoaderRegs.count_frame (data : BitVec 32 → BitVec 64) (endCounter : ℕ) :
    (LoaderRegs.count endCounter).Coherent data ∧ (LoaderRegs.count endCounter).owedCmd = [] ∧
      (LoaderRegs.count endCounter).owedOutput = [] := by
  unfold LoaderRegs.count
  split
  · exact ⟨VCache.clear_coherent data, rfl, rfl⟩
  · exact ⟨trivial, rfl, rfl⟩

/-- A request with the command and the descriptor it was served with. -/
structure Service where
  nvPkg : AxiPkg (BitVec 64)
  cmd : MemAccessCmd
  vPkg : AxiPkg VertexDescriptorWithState

/-- How a request is served from the arrays. -/
def VCache.serve (arrays : VCache) (nvPkg : AxiPkg (BitVec 64)) : Service where
  nvPkg := nvPkg
  cmd := loaderCmd nvPkg (arrays.memAccessFlag nvPkg.data)
  vPkg := ⟨arrays.lookup nvPkg.data, nvPkg.last⟩

/-- What the loader has sent for the requests it has read. -/
structure Loading (data : BitVec 32 → BitVec 64) (served : List Service) (r : LoaderRegs)
    (R : ∀ i : LoaderIn, List (CacheWord i.sort)) (S : ∀ o : LoaderOut, List (CacheWord o.sort)) :
    Prop where
  coherent : r.Coherent data
  lawful : ∀ x ∈ served, Served data x.nvPkg x.cmd x.vPkg
  input : R .input = served.map Service.nvPkg
  vertexCmd : S .vertexCmd ++ r.owedCmd = served.map Service.cmd
  output : S .output ++ r.owedOutput = served.map Service.vPkg

/-- Operations that neither read a request nor send anything. -/
theorem Loading.frame {data : BitVec 32 → BitVec 64} {served : List Service} {r r' : LoaderRegs}
    {R R' : ∀ i : LoaderIn, List (CacheWord i.sort)} {S : ∀ o : LoaderOut, List (CacheWord o.sort)}
    (h : Loading data served r R S) (hcoherent : r'.Coherent data) (hinput : R' .input = R .input)
    (hcmd : r'.owedCmd = r.owedCmd) (houtput : r'.owedOutput = r.owedOutput) :
    Loading data served r' R' S :=
  ⟨hcoherent, h.lawful, hinput.trans h.input, by rw [hcmd, h.vertexCmd],
    by rw [houtput, h.output]⟩

/-- Updates that carry what is in memory. -/
def CoherentUpdates (data : BitVec 32 → BitVec 64) (l : List (AxiPkg VertexDescriptorUpdate)) :
    Prop :=
  ∀ cuPkg ∈ l, cuPkg.data.Coherent data

/-- As long as the updates it reads are coherent, the loader serves its requests in order. -/
theorem vertexLoaderKernel_path {data : BitVec 32 → BitVec 64} {r : LoaderRegs}
    {R : ∀ i : LoaderIn, List (CacheWord i.sort)} {S : ∀ o : LoaderOut, List (CacheWord o.sort)}
    (h : vertexLoaderKernel.Path vertexLoaderKernel.start r R S)
    (hupdates : CoherentUpdates data (R .cacheUpdate)) :
    ∃ served, Loading data served r R S := by
  revert hupdates
  refine h.induct (I := fun (r : LoaderRegs) (R : ∀ i : LoaderIn, List (CacheWord i.sort))
    (S : ∀ o : LoaderOut, List (CacheWord o.sort)) =>
      CoherentUpdates data (R .cacheUpdate) → ∃ served, Loading data served r R S) ?_ ?_
  · exact fun _ => ⟨[], VCache.clear_coherent data, by simp, rfl, rfl, rfl⟩
  intro r R S hI
  have hin : LoaderIn.cacheUpdate ≠ .input := by decide
  have hout : LoaderOut.output ≠ .vertexCmd := by decide
  have hread : ∀ cuPkg, CoherentUpdates data (R .cacheUpdate ++ [cuPkg]) →
      CoherentUpdates data (R .cacheUpdate) := fun cuPkg h x hx => h x (List.mem_append_left _ hx)
  cases r with
  | poll arrays =>
      refine ⟨fun hupdates => ?_, fun nvPkg hupdates => ?_⟩
      · obtain ⟨served, hload⟩ := hI hupdates
        exact ⟨served, hload.frame hload.coherent rfl rfl rfl⟩
      · rw [Function.update_of_ne hin] at hupdates
        obtain ⟨served, hcoherent, hserved, hinput, hcmd, houtput⟩ := hI hupdates
        have hnew := VCache.Coherent.lookup_served hcoherent nvPkg
        refine ⟨served ++ [arrays.serve nvPkg], hcoherent, fun x hx => ?_, ?_, ?_, ?_⟩
        · rcases List.mem_append.mp hx with hx | hx
          · exact hserved x hx
          · rw [List.mem_singleton.mp hx]
            exact hnew
        · rw [Function.update_self, hinput, List.map_append]
          rfl
        · simp only [LoaderRegs.owedCmd, List.append_nil] at hcmd
          rw [hcmd, List.map_append]
          rfl
        · simp only [LoaderRegs.owedOutput, List.append_nil] at houtput
          rw [houtput, List.map_append]
          rfl
  | writeCmd arrays cmd vPkg =>
      intro hupdates
      obtain ⟨served, hcoherent, hserved, hinput, hcmd, houtput⟩ := hI hupdates
      refine ⟨served, hcoherent, hserved, hinput, ?_, ?_⟩
      · rw [Function.update_self]
        simpa [LoaderRegs.owedCmd] using hcmd
      · rw [Function.update_of_ne hout]
        exact houtput
  | writeOutput arrays vPkg =>
      intro hupdates
      obtain ⟨served, hcoherent, hserved, hinput, hcmd, houtput⟩ := hI hupdates
      refine ⟨served, ?_, hserved, hinput, ?_, ?_⟩
      · cases vPkg.last
        · exact hcoherent
        · trivial
      · rw [Function.update_of_ne hout.symm]
        cases vPkg.last <;> exact hcmd
      · rw [Function.update_self]
        cases vPkg.last <;> simpa [LoaderRegs.owedOutput] using houtput
  | update arrays =>
      refine ⟨fun hupdates => ?_, fun cuPkg hupdates => ?_⟩
      · obtain ⟨served, hload⟩ := hI hupdates
        exact ⟨served, hload.frame hload.coherent rfl rfl rfl⟩
      · rw [Function.update_self] at hupdates
        obtain ⟨served, hload⟩ := hI (hread cuPkg hupdates)
        have hnew := VCache.Coherent.update hload.coherent (hupdates cuPkg (by simp))
        exact ⟨served, hload.frame hnew (Function.update_of_ne hin.symm _ _) rfl rfl⟩
  | emptyStream endCounter =>
      -- What is read here is dropped, and the arrays are cleared afterwards.
      refine ⟨fun hupdates => ?_, fun clearData hupdates => ?_⟩
      · obtain ⟨served, hload⟩ := hI hupdates
        obtain ⟨hcoherent, hcmd, houtput⟩ := LoaderRegs.count_frame data (endCounter + 1)
        exact ⟨served, hload.frame hcoherent rfl hcmd houtput⟩
      · rw [Function.update_self] at hupdates
        obtain ⟨served, hload⟩ := hI (hread clearData hupdates)
        obtain ⟨hcoherent, hcmd, houtput⟩ := LoaderRegs.count_frame data 0
        exact ⟨served, hload.frame hcoherent (Function.update_of_ne hin.symm _ _) hcmd houtput⟩

/-! ## `vcache_vd` and `vcache_update` -/

/-- What `vcache_vd` makes of a response and a descriptor. -/
def vcacheVd (dataPkg : AxiPkg MemAccessItem) (vdsPkg : AxiPkg VertexDescriptorWithState) :
    AxiPkg VertexDescriptor where
  data :=
    if vdsPkg.data.state = vdsInvalid then .ofWord dataPkg.data.data
    else ⟨vdsPkg.data.start, vdsPkg.data.size⟩
  last := vdsPkg.last

/-- What `vcache_update` makes of a response and a descriptor. -/
def vcacheUpdate (dataPkg : AxiPkg MemAccessItem) (vdsPkg : AxiPkg VertexDescriptorWithState) :
    Option (AxiPkg VertexDescriptorUpdate) :=
  if vdsPkg.data.state = vdsInvalid then
    let newVd := VertexDescriptor.ofWord dataPkg.data.data
    if vdsPkg.data.size < newVd.size then
      some ⟨⟨newVd.start, newVd.size, vdsPkg.data.start⟩, vdsPkg.last⟩
    else none
  else none

/-- The response to the command of a request that memory is to answer. -/
theorem response_loaderCmd (data : BitVec 32 → BitVec 64) (nvPkg : AxiPkg (BitVec 64)) :
    (response data 0 (loaderCmd nvPkg true)).data.data = data (nvPkg.data.setWidth 32) := by
  have hdummy : (loaderCmd nvPkg true).dummyFlag = false := by
    cases hlast : nvPkg.last <;>
      simp [MemAccessCmd.dummyFlag, loaderCmd, hlast, mmStateMaskDummy, mmStateMaskEnd]
  simp only [response, hdummy]
  rfl

/-- A served request leaves `vcache_vd` as the descriptor of its vertex. -/
theorem Served.vcacheVd {data : BitVec 32 → BitVec 64} {nvPkg cmd vPkg}
    (h : Served data nvPkg cmd vPkg) :
    vcacheVd (response data 0 cmd) vPkg = descriptorOf data nvPkg := by
  cases h with
  | known vd hvd =>
      subst hvd
      simp [Cache.vcacheVd, vdsInvalid, descriptorOf]
  | missed size hdead =>
      simp only [Cache.vcacheVd, descriptorOf, hdead, if_true, response_loaderCmd]
      rfl

/-- The update made of a served request is coherent. -/
theorem Served.vcacheUpdate {data : BitVec 32 → BitVec 64} {nvPkg cmd vPkg cuPkg}
    (h : Served data nvPkg cmd vPkg) (hsome : vcacheUpdate (response data 0 cmd) vPkg = some cuPkg) :
    cuPkg.data.Coherent data := by
  unfold Cache.vcacheUpdate at hsome
  cases h with
  | known vd hvd => simp [vdsInvalid] at hsome
  | missed size hdead =>
      simp only [if_true, response_loaderCmd] at hsome
      split at hsome
      · cases hsome
        rfl
      · cases hsome

/-! ## `vcache_duplicate` -/

/-- Registers of `stream_duplicate_nb`. -/
inductive DuplicateRegs (w : Type) where
  | poll
  | writeOut1 (data : w)
  | writeOut2 (data : w)

/-- The loop of `stream_duplicate_nb`. -/
def streamDuplicateNbKernel (w : Type) : Kernel (fun _ : Unit => w) (fun _ : Fin 2 => w) where
  σ := DuplicateRegs w
  Ω := Empty
  start := .poll
  op
    | .poll => .readNb () fun
        | some data => .writeOut1 data
        | none => .poll
    | .writeOut1 data => .write 0 data (.writeOut2 data)
    | .writeOut2 data => .write 1 data .poll

/-- The word that is still to be sent on an output. -/
def DuplicateRegs.pending {w : Type} (o : Fin 2) : DuplicateRegs w → List w
  | .poll => []
  | .writeOut1 data => [data]
  | .writeOut2 data => if o = 1 then [data] else []

/-- Every output of `stream_duplicate_nb` receives every word. -/
theorem streamDuplicateNbKernel_path {w : Type} {r : DuplicateRegs w} {R : Unit → List w}
    {S : Fin 2 → List w} (h : (streamDuplicateNbKernel w).Path .poll r R S) (o : Fin 2) :
    S o ++ r.pending o = R () := by
  refine h.induct (I := fun (r : DuplicateRegs w) R S => S o ++ r.pending o = R ()) rfl ?_
  intro r R S hI
  cases r with
  | poll =>
      refine ⟨hI, fun data => ?_⟩
      simp only [DuplicateRegs.pending, List.append_nil] at hI
      simp [DuplicateRegs.pending, hI]
  | writeOut1 data =>
      fin_cases o <;> simpa [Kernel.Keeps, streamDuplicateNbKernel, DuplicateRegs.pending] using hI
  | writeOut2 data =>
      fin_cases o <;> simpa [Kernel.Keeps, streamDuplicateNbKernel, DuplicateRegs.pending] using hI

end RidgeWalker.Cache
