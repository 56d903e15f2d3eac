import RidgeWalker.Cache.Coherence
import RidgeWalker.Dataflow.Deferred

/-!
# Degree-aware replacement

`vcache_update` sends a descriptor back to the cache when its degree is larger than that of the
slot at the time of the miss, and `vertex_loader` stores whatever comes back.  In between, the
slot may have been given to a vertex of still larger degree.

Main results:

- Theorem `written_isPrefix_made`: the updates on their way are those for what has been sent.
- Theorem `sizes_grow`: no slot loses degree in a run in which no vertex of a degree in between is
  requested too early.
- Theorem `size_shrinks`: with two misses in flight on one slot, the slot loses degree.
-/

namespace RidgeWalker.Cache

open Dataflow Network Memory

/-! ## Updates in flight -/

/-- The degree of a vertex in memory. -/
def degree (data : BitVec 32 → BitVec 64) (v : BitVec 32) : ℕ :=
  (VertexDescriptor.ofWord (data v)).size.toNat

/-- The update that comes back for what the loader has sent. -/
def updateFor (data : BitVec 32 → BitVec 64) (vPkg : AxiPkg VertexDescriptorWithState) :
    Option (AxiPkg VertexDescriptorUpdate) :=
  vcacheUpdate ⟨⟨data vPkg.data.start, false⟩, false⟩ vPkg

/-- The slot of an update. -/
def slotOf (cuPkg : AxiPkg VertexDescriptorUpdate) : BitVec 32 := vCacheTag cuPkg.data.v

/-- The degree that an update brings. -/
def sizeOf (cuPkg : AxiPkg VertexDescriptorUpdate) : ℕ := cuPkg.data.size.toNat

/-- The arrays in the registers; while the updates are drained they are as good as cleared. -/
def LoaderRegs.arrays : LoaderRegs → VCache
  | .poll arrays | .writeCmd arrays _ _ | .writeOutput arrays _ | .update arrays => arrays
  | .emptyStream _ => .clear

/-- The degree stored in a slot. -/
def LoaderRegs.stored (r : LoaderRegs) (slot : BitVec 32) : ℕ := (r.arrays.cache slot).size.toNat

/-- The response to a request does not depend on the state of the memory engine. -/
theorem Served.update_eq {data : BitVec 32 → BitVec 64} {nvPkg cmd vPkg}
    (h : Served data nvPkg cmd vPkg) :
    Cache.vcacheUpdate (response data 0 cmd) vPkg = updateFor data vPkg := by
  cases h with
  | known vd hvd => rfl
  | missed size hdead => simp only [updateFor, Cache.vcacheUpdate, response_loaderCmd]

/-! ## One operation of the loader -/

section Loader

variable {data : BitVec 32 → BitVec 64}

/-- The updates for the requests that have been served, when `output` has been written. -/
def LoaderRegs.made (data : BitVec 32 → BitVec 64) (r : LoaderRegs)
    (output : List (AxiPkg VertexDescriptorWithState)) : List (AxiPkg VertexDescriptorUpdate) :=
  (output ++ r.owedOutput).filterMap (updateFor data)

/-- The updates that have not been read, when `taken` have been. -/
def LoaderRegs.inFlight (data : BitVec 32 → BitVec 64) (r : LoaderRegs)
    (taken : List (AxiPkg VertexDescriptorUpdate))
    (output : List (AxiPkg VertexDescriptorWithState)) : List (AxiPkg VertexDescriptorUpdate) :=
  (r.made data output).drop taken.length

/-- The loader is not draining the updates after its last request. -/
def LoaderRegs.Running : LoaderRegs → Prop
  | .emptyStream _ => False
  | _ => True

/-- A request for `v` misses, and its degree lies between that of its slot and that of an update
on its way to this slot. -/
def Untimely (data : BitVec 32 → BitVec 64) (r : LoaderRegs)
    (pending : List (AxiPkg VertexDescriptorUpdate)) (v : BitVec 64) : Prop :=
  r.arrays.memAccessFlag v = true ∧ r.stored (vCacheTag v) < degree data (v.setWidth 32) ∧
    ∃ cuPkg ∈ pending, slotOf cuPkg = vCacheTag v ∧ degree data (v.setWidth 32) < sizeOf cuPkg

theorem vCacheTag_setWidth (v : BitVec 64) : vCacheTag (v.setWidth 32) = vCacheTag v := by
  apply BitVec.eq_of_getLsbD_eq
  intro i hi
  simp [vCacheTag, hi]

/-- The update for a request: it misses, and its degree is larger than that of the slot. -/
theorem updateFor_lookup {arrays : VCache} {v : BitVec 64} {last : Bool}
    {cuPkg : AxiPkg VertexDescriptorUpdate}
    (h : updateFor data ⟨arrays.lookup v, last⟩ = some cuPkg) :
    arrays.memAccessFlag v = true ∧ slotOf cuPkg = vCacheTag v ∧
      sizeOf cuPkg = degree data (v.setWidth 32) ∧
        (arrays.cache (vCacheTag v)).size.toNat < degree data (v.setWidth 32) := by
  have hstate : ∀ vd : VertexDescriptor, updateFor data ⟨⟨vd.start, vd.size, 0⟩, last⟩ = none :=
    fun _ => rfl
  unfold VCache.lookup at h
  unfold VCache.memAccessFlag
  cases hdead : deadEnd v with
  | true =>
      rw [hdead] at h
      exact absurd ((hstate ⟨v.setWidth 32, 0⟩).symm.trans h) nofun
  | false =>
      cases hhit : arrays.hit v with
      | true =>
          rw [hdead, hhit] at h
          exact absurd ((hstate (arrays.cache (vCacheTag v))).symm.trans h) nofun
      | false =>
          rw [hdead, hhit] at h
          simp only [Bool.false_eq_true, if_false, updateFor, vcacheUpdate, if_true] at h
          split at h
          · rename_i hless
            cases h
            exact ⟨rfl, vCacheTag_setWidth v, rfl, hless⟩
          · cases h

/-- Draining the updates keeps no degree. -/
theorem LoaderRegs.stored_count (endCounter : ℕ) (slot : BitVec 32) :
    (LoaderRegs.count endCounter).stored slot = 0 := by
  unfold LoaderRegs.count
  split <;> rfl

/-- With nothing owed, the updates are those for what has been written. -/
theorem LoaderRegs.made_of_none {r : LoaderRegs} (h : r.owedOutput = [])
    (output : List (AxiPkg VertexDescriptorWithState)) :
    r.made data output = output.filterMap (updateFor data) := by
  rw [LoaderRegs.made, h, List.append_nil]

theorem LoaderRegs.owedOutput_count (endCounter : ℕ) :
    (LoaderRegs.count endCounter).owedOutput = [] := by
  unfold LoaderRegs.count
  split <;> rfl

/-- An update in the arrays. -/
theorem VCache.stored_update (arrays : VCache) (cuPkg : AxiPkg VertexDescriptorUpdate) :
    (LoaderRegs.poll (arrays.update cuPkg.data)).stored =
      Function.update (LoaderRegs.update arrays).stored (slotOf cuPkg) (sizeOf cuPkg) := by
  funext slot
  show ((Function.update arrays.cache (vCacheTag cuPkg.data.v)
    ⟨cuPkg.data.start, cuPkg.data.size⟩) slot).size.toNat = _
  by_cases hslot : slot = vCacheTag cuPkg.data.v
  · subst hslot
    rw [Function.update_self, slotOf, Function.update_self]
    rfl
  · rw [Function.update_of_ne hslot, slotOf, Function.update_of_ne hslot]
    rfl

/-- The oldest update in flight is the one that is read. -/
theorem drop_of_read {A : Type} {taken made : List A} {x : A} (h : taken ++ [x] <+: made) :
    made.drop taken.length = x :: made.drop (taken.length + 1) := by
  obtain ⟨rest, rfl⟩ := h
  rw [List.append_assoc, List.drop_left, List.singleton_append, List.drop_append,
    List.drop_eq_nil_of_le (Nat.le_succ _), Nat.add_sub_cancel_left]
  rfl

/-- A request that is not untimely adds an update that keeps the order. -/
theorem request_rising {arrays : VCache} {pending : List (AxiPkg VertexDescriptorUpdate)}
    (h : Rising slotOf sizeOf (LoaderRegs.poll arrays).stored pending) {v : BitVec 64}
    (hok : ¬Untimely data (.poll arrays) pending v) (last : Bool) :
    Rising slotOf sizeOf (LoaderRegs.poll arrays).stored
      (pending ++ (updateFor data ⟨arrays.lookup v, last⟩).toList) := by
  cases hupdate : updateFor data ⟨arrays.lookup v, last⟩ with
  | none => rwa [Option.toList_none, List.append_nil]
  | some cuPkg =>
      obtain ⟨hmiss, hslot, hsize, hless⟩ := updateFor_lookup hupdate
      refine h.push ?_ fun u hu hplace => ?_
      · rw [hslot, hsize]
        exact hless.le
      · rw [hsize]
        by_contra hlarge
        exact hok ⟨hmiss, hless, u, hu, hplace.trans hslot, not_le.mp hlarge⟩

/-- What an operation of the loader does to the updates in flight and to the degrees stored. -/
theorem loader_rising {r r' : LoaderRegs}
    {e : Event (fun i : LoaderIn => CacheWord i.sort) (fun o : LoaderOut => CacheWord o.sort) Empty}
    (hl : vertexLoaderKernel.Local r e r')
    {R : ∀ i : LoaderIn, List (CacheWord i.sort)} {S : ∀ o : LoaderOut, List (CacheWord o.sort)}
    (h : Rising slotOf sizeOf r.stored (r.inFlight data (R .cacheUpdate) (S .output)))
    (hpre : e.received R .cacheUpdate <+: r'.made data (e.sent S .output))
    (hread : R .cacheUpdate <+: r.made data (S .output))
    (hok : ∀ nvPkg, e = .read LoaderIn.input nvPkg →
      ¬Untimely data r (r.inFlight data (R .cacheUpdate) (S .output)) nvPkg.data) :
    Rising slotOf sizeOf r'.stored
        (r'.inFlight data (e.received R .cacheUpdate) (e.sent S .output)) ∧
      (r.Running → r'.Running → ∀ slot, r.stored slot ≤ r'.stored slot) := by
  have hy := hl.yields
  have hin : LoaderIn.cacheUpdate ≠ .input := by decide
  have hout : LoaderOut.output ≠ .vertexCmd := by decide
  cases r with
  | poll arrays =>
      rcases hy with ⟨rfl, rfl⟩ | ⟨nvPkg, rfl, rfl⟩
      · exact ⟨h, fun _ _ _ => le_rfl⟩
      · refine ⟨?_, fun _ _ _ => le_rfl⟩
        show Rising slotOf sizeOf (LoaderRegs.poll arrays).stored (LoaderRegs.inFlight data
          (.writeCmd arrays (loaderCmd nvPkg (arrays.memAccessFlag nvPkg.data))
            ⟨arrays.lookup nvPkg.data, nvPkg.last⟩)
          (Function.update R .input (R .input ++ [nvPkg]) .cacheUpdate) (S .output))
        have hrequest := request_rising h (hok nvPkg rfl) nvPkg.last
        rw [LoaderRegs.inFlight, ← List.drop_append_of_le_length hread.length_le] at hrequest
        rw [Function.update_of_ne hin, LoaderRegs.inFlight, LoaderRegs.made, List.filterMap_append]
        rw [LoaderRegs.made_of_none rfl] at hrequest
        cases hupdate : updateFor data ⟨arrays.lookup nvPkg.data, nvPkg.last⟩ <;>
          simpa [LoaderRegs.owedOutput, hupdate] using hrequest
  | writeCmd arrays cmd vPkg =>
      obtain ⟨rfl, rfl⟩ := hy
      refine ⟨?_, fun _ _ _ => le_rfl⟩
      show Rising slotOf sizeOf (LoaderRegs.writeCmd arrays cmd vPkg).stored
        (LoaderRegs.inFlight data (.writeOutput arrays vPkg) (R .cacheUpdate)
          (Function.update S .vertexCmd (S .vertexCmd ++ [cmd]) .output))
      rw [Function.update_of_ne hout]
      exact h
  | writeOutput arrays vPkg =>
      obtain ⟨rfl, rfl⟩ := hy
      let r' : LoaderRegs := if vPkg.last then .emptyStream 0 else .update arrays
      have howed : r'.owedOutput = [] := by
        dsimp only [r']
        split <;> rfl
      have hlow : ∀ slot, r'.stored slot ≤ (LoaderRegs.writeOutput arrays vPkg).stored slot := by
        intro slot
        dsimp only [r']
        split
        · exact Nat.zero_le _
        · exact le_rfl
      refine ⟨?_, fun _ hrunning slot => ?_⟩
      · show Rising slotOf sizeOf r'.stored (r'.inFlight data (R .cacheUpdate)
          (Function.update S .output (S .output ++ [vPkg]) .output))
        rw [Function.update_self, LoaderRegs.inFlight, LoaderRegs.made_of_none howed]
        exact h.lower hlow
      · have hrunning : r'.Running := hrunning
        show (LoaderRegs.writeOutput arrays vPkg).stored slot ≤ r'.stored slot
        dsimp only [r'] at hrunning ⊢
        split at hrunning
        · exact hrunning.elim
        · rename_i hmore
          rw [if_neg hmore]
          exact le_rfl
  | update arrays =>
      rcases hy with ⟨rfl, rfl⟩ | ⟨cuPkg, rfl, rfl⟩
      · exact ⟨h, fun _ _ _ => le_rfl⟩
      · have hpre : Function.update R .cacheUpdate (R .cacheUpdate ++ [cuPkg]) .cacheUpdate <+:
          (S .output).filterMap (updateFor data) := by
            rw [← LoaderRegs.made_of_none (r := LoaderRegs.poll (arrays.update cuPkg.data)) rfl]
            exact hpre
        rw [Function.update_self] at hpre
        rw [LoaderRegs.inFlight, LoaderRegs.made_of_none rfl, drop_of_read hpre] at h
        show Rising slotOf sizeOf (LoaderRegs.poll (arrays.update cuPkg.data)).stored
            (LoaderRegs.inFlight data (.poll (arrays.update cuPkg.data))
              (Function.update R .cacheUpdate (R .cacheUpdate ++ [cuPkg]) .cacheUpdate)
              (S .output)) ∧ (True → True → ∀ slot, (LoaderRegs.update arrays).stored slot ≤
                (LoaderRegs.poll (arrays.update cuPkg.data)).stored slot)
        rw [Function.update_self, LoaderRegs.inFlight, LoaderRegs.made_of_none rfl,
          List.length_append, VCache.stored_update]
        exact ⟨h.carryOut, fun _ _ slot => h.le_carryOut slot⟩
  | emptyStream endCounter =>
      refine ⟨?_, fun hrunning => hrunning.elim⟩
      have hlow : ∀ n slot, (LoaderRegs.count n).stored slot ≤
          (LoaderRegs.emptyStream endCounter).stored slot := by
        intro n slot
        rw [LoaderRegs.stored_count]
        exact Nat.zero_le _
      rcases hy with ⟨rfl, rfl⟩ | ⟨cuPkg, rfl, rfl⟩
      · show Rising slotOf sizeOf (LoaderRegs.count (endCounter + 1)).stored
          ((LoaderRegs.count (endCounter + 1)).inFlight data (R .cacheUpdate) (S .output))
        rw [LoaderRegs.inFlight, LoaderRegs.made_of_none (LoaderRegs.owedOutput_count _)]
        rw [LoaderRegs.inFlight, LoaderRegs.made_of_none rfl] at h
        exact h.lower (hlow _)
      · have hpre : Function.update R .cacheUpdate (R .cacheUpdate ++ [cuPkg]) .cacheUpdate <+:
          (S .output).filterMap (updateFor data) := by
            rw [← LoaderRegs.made_of_none (LoaderRegs.owedOutput_count 0)]
            exact hpre
        rw [Function.update_self] at hpre
        rw [LoaderRegs.inFlight, LoaderRegs.made_of_none rfl, drop_of_read hpre] at h
        show Rising slotOf sizeOf (LoaderRegs.count 0).stored ((LoaderRegs.count 0).inFlight data
          (Function.update R .cacheUpdate (R .cacheUpdate ++ [cuPkg]) .cacheUpdate) (S .output))
        rw [Function.update_self, LoaderRegs.inFlight,
          LoaderRegs.made_of_none (LoaderRegs.owedOutput_count _), List.length_append]
        exact h.giveUp.lower (hlow _)

end Loader

/-! ## The network -/

variable {data : BitVec 32 → BitVec 64} {depth : Chan CacheStream → ℕ}

/-- The updates that reach the loader are those for the requests it has served. -/
theorem written_isPrefix_made {s : (cacheNet data depth).State}
    (hs : (cacheNet data depth).Reachable s) :
    s.written cacheUpdate <+:
      LoaderRegs.made data (s.regs .vertexLoader) (s.written (inVds .whole)) := by
  have hread : CoherentUpdates data (s.taken cacheUpdate) := fun cuPkg hcu =>
    cacheUpdate_coherent hs cuPkg ((s.taken_isPrefix cacheUpdate).subset hcu)
  obtain ⟨served, hload⟩ :=
    vertexLoaderKernel_path (hs.path cacheNet_pointToPoint .vertexLoader) hread
  obtain ⟨hdata, hvds⟩ := joined_isPrefix hs hload 1
  obtain ⟨done, hjoin⟩ := cacheUpdate_written hs
  have hall := hjoin.isPrefix hdata hvds
  rw [List.zip_map', List.filterMap_map] at hall
  have hsame : served.filterMap (fun x => vcacheUpdate (response data 0 x.cmd) x.vPkg) =
      served.filterMap (updateFor data ∘ Service.vPkg) :=
    List.filterMap_congr fun x hx => (hload.lawful x hx).update_eq
  have hsent : s.written (inVds .whole) ++ LoaderRegs.owedOutput (s.regs .vertexLoader) =
      served.map Service.vPkg := hload.output
  show s.written cacheUpdate <+: (s.written (inVds .whole) ++
    LoaderRegs.owedOutput (s.regs .vertexLoader)).filterMap (updateFor data)
  rw [hsent, List.filterMap_map, ← hsame]
  exact hall

/-- The updates in flight in a state. -/
def inFlight (s : (cacheNet data depth).State) : List (AxiPkg VertexDescriptorUpdate) :=
  LoaderRegs.inFlight data (s.regs .vertexLoader) (s.taken cacheUpdate) (s.written (inVds .whole))

/-- The degree stored in a slot. -/
def stored (s : (cacheNet data depth).State) : BitVec 32 → ℕ :=
  LoaderRegs.stored (s.regs .vertexLoader)

/-- The loader is not draining the updates after its last request. -/
def Running (s : (cacheNet data depth).State) : Prop := LoaderRegs.Running (s.regs .vertexLoader)

/-- The request that is read, if one is, is not untimely. -/
def Timely (s : (cacheNet data depth).State) (l : (cacheNet data depth).Label) : Prop :=
  ∀ nvPkg : AxiPkg (BitVec 64), l = .fire .vertexLoader (s.regs .vertexLoader)
      (.read LoaderIn.input nvPkg) →
    ¬Untimely data (s.regs .vertexLoader) (inFlight s) nvPkg.data

/-- A timely step keeps the order of the updates in flight, and takes no degree from a slot. -/
theorem step_rising {tr : List (cacheNet data depth).Label} {s s' : (cacheNet data depth).State}
    {l : (cacheNet data depth).Label}
    (hr : (cacheNet data depth).Run (cacheNet data depth).init tr s)
    (hs : (cacheNet data depth).Step s l s')
    (h : Rising slotOf sizeOf (stored s) (inFlight s)) (hok : Timely s l) :
    Rising slotOf sizeOf (stored s') (inFlight s') ∧
      (Running s → Running s' → ∀ slot, stored s slot ≤ stored s' slot) := by
  have hmade := written_isPrefix_made ⟨tr, hr⟩
  have hmade' := written_isPrefix_made ⟨_, hr.snoc hs⟩
  rcases hs.label_or_frame cacheNet_pointToPoint .vertexLoader with
    ⟨e, hlabel, hl, hR, hS⟩ | ⟨hregs, hR, hS⟩
  · have htaken : s'.taken cacheUpdate =
        e.received (fun i => s.taken (vertexLoader.src i)) LoaderIn.cacheUpdate :=
      congrFun hR LoaderIn.cacheUpdate
    have hwritten : s'.written (inVds .whole) =
        e.sent (fun o => s.written (vertexLoader.dst o)) LoaderOut.output :=
      congrFun hS LoaderOut.output
    have hpre := (s'.taken_isPrefix cacheUpdate).trans hmade'
    have hread := (s.taken_isPrefix cacheUpdate).trans hmade
    unfold inFlight stored
    rw [htaken, hwritten] at hpre ⊢
    refine loader_rising hl h hpre hread fun nvPkg he => hok nvPkg ?_
    exact hlabel.trans (congrArg _ he)
  · have htaken : s'.taken cacheUpdate = s.taken cacheUpdate := congrFun hR LoaderIn.cacheUpdate
    have hwritten : s'.written (inVds .whole) = s.written (inVds .whole) :=
      congrFun hS LoaderOut.output
    unfold inFlight stored
    rw [hregs, htaken, hwritten]
    exact ⟨h, fun _ _ _ => le_rfl⟩

/-- The updates in flight are in order in every state that timely steps lead to. -/
theorem run_rising {tr : List (cacheNet data depth).Label} {s : (cacheNet data depth).State}
    (hr : (cacheNet data depth).GuardedRun Timely (cacheNet data depth).init tr s) :
    Rising slotOf sizeOf (stored s) (inFlight s) := by
  induction hr with
  | nil => exact .nil
  | snoc hr hok hs ih => exact (step_rising hr.run hs ih hok).1

/-- As long as the loader keeps running and no request is untimely, no slot loses degree. -/
theorem sizes_grow (data : BitVec 32 → BitVec 64) (depth : Chan CacheStream → ℕ)
    {tr tr' : List (cacheNet data depth).Label} {s s' : (cacheNet data depth).State}
    (hr : (cacheNet data depth).GuardedRun Timely (cacheNet data depth).init tr s)
    (hr' : (cacheNet data depth).GuardedRun (fun s l => Timely s l ∧ Running s) s tr' s')
    (hrunning : Running s') (slot : BitVec 32) : stored s slot ≤ stored s' slot := by
  have hall : Rising slotOf sizeOf (stored s') (inFlight s') ∧
      (∃ tr, (cacheNet data depth).Run (cacheNet data depth).init tr s') ∧
        (Running s' → stored s slot ≤ stored s' slot) := by
    clear hrunning
    induction hr' with
    | nil => exact ⟨run_rising hr, ⟨_, hr.run⟩, fun _ => le_rfl⟩
    | snoc hr' hok hs ih =>
        obtain ⟨hrising, ⟨tr, hreach⟩, hle⟩ := ih
        obtain ⟨hrising', hgrow⟩ := step_rising hreach hs hrising hok.1
        exact ⟨hrising', ⟨_, hreach.snoc hs⟩, fun hrunning =>
          (hle hok.2).trans (hgrow hok.2 hrunning slot)⟩
  exact hall.2.2 hrunning

instance LoaderRegs.decidableRunning : DecidablePred LoaderRegs.Running
  | .emptyStream _ => isFalse id
  | .poll _ | .writeCmd _ _ _ | .writeOutput _ _ | .update _ => isTrue trivial

instance : DecidablePred (@Running data depth) := fun s =>
  LoaderRegs.decidableRunning (s.regs .vertexLoader)

/-- Every vertex of the cubic memory has degree 3. -/
theorem degree_cubic (v : BitVec 32) : degree cubic v = 3 := by
  have hv := v.isLt
  rw [degree, VertexDescriptor.ofWord, Bits.toNat_range, cubic, BitVec.toNat_add,
    BitVec.toNat_setWidth]
  simp only [BitVec.toNat_ofNat]
  omega

/-- A single miss on a vertex of degree 3: nothing is in flight when it is requested, and its
degree is stored. -/
theorem sizes_grow_miss :
    ∃ s : tightNet.State, stored tightNet.init 5 ≤ stored s 5 ∧ stored s 5 = 3 := by
  have hcalm : ∀ (s : tightNet.State) l, (∀ cuPkg ∈ inFlight s, sizeOf cuPkg ≤ 3) ∧ Running s →
      Timely s l ∧ Running s := by
    rintro s l ⟨hsmall, hrunning⟩
    refine ⟨fun nvPkg _ ⟨_, _, cuPkg, hcu, _, hlarge⟩ => ?_, hrunning⟩
    rw [degree_cubic] at hlarge
    exact absurd (hsmall cuPkg hcu) (not_le.mpr hlarge)
  obtain ⟨tr, s, hs⟩ : ∃ tr s, Network.execute
      (fun s _ => (∀ cuPkg ∈ inFlight s, sizeOf cuPkg ≤ 3) ∧ Running s)
      (requesting false ++ [.fire .vcacheUpdate none, .fire .vertexLoader none]) [] tightNet.init =
        some (tr, s) := ⟨_, _, rfl⟩
  have hresult : Running s ∧ stored s 5 = 3 := by
    cases hs
    decide +kernel
  exact ⟨s, sizes_grow cubic _ .nil ((Network.execute_run .nil hs).mono hcalm) hresult.1 5,
    hresult.2⟩

/-- A memory in which vertex 5 has degree 10 and all others have degree 3. -/
def uneven (addr : BitVec 32) : BitVec 64 :=
  (if addr = 5 then 0xa00000000#64 else 0x300000000#64) + addr.setWidth 64

/-- The network on that memory, on streams that hold two words. -/
abbrev wideNet : Network CacheProc CacheStream CacheWord := cacheNet uneven fun _ => 2

/-- Two vertices of one slot are requested before the first response is back, and the first
update reaches the cache. -/
def twoMisses : List wideNet.Action :=
  [.put input ⟨5, false⟩, .put input ⟨65541, false⟩] ++
    List.replicate 7 (.fire .vertexLoader none) ++ List.replicate 6 (.fire .vcacheMem none) ++
      List.replicate 6 (.fire .duplicateData none) ++
        List.replicate 6 (.fire .duplicateVds none) ++
          List.replicate 6 (.fire .vcacheUpdate none) ++ [.fire .vertexLoader none]

/-- The second of two misses on one slot was compared with the slot before the first update. -/
theorem size_shrinks :
    ¬∀ (data : BitVec 32 → BitVec 64) (depth : Chan CacheStream → ℕ)
      (tr : List (cacheNet data depth).Label) (s s' : (cacheNet data depth).State),
      (cacheNet data depth).Reachable s →
        (cacheNet data depth).GuardedRun (fun s _ => Running s) s tr s' → Running s' →
          ∀ slot, stored s slot ≤ stored s' slot := by
  intro hgrow
  obtain ⟨tr, s, hs⟩ : ∃ tr s, Network.execute (fun _ _ => True) twoMisses [] wideNet.init =
      some (tr, s) := ⟨_, _, rfl⟩
  obtain ⟨tr', s', hs'⟩ : ∃ tr' s', Network.execute (fun s _ => Running s)
      (List.replicate 2 (.fire .vertexLoader none)) [] s = some (tr', s') := by
    cases hs
    exact ⟨_, _, rfl⟩
  have hfirst : stored s 5 = 10 := by
    cases hs
    decide +kernel
  have hsecond : Running s' ∧ stored s' 5 = 3 := by
    cases hs
    cases hs'
    decide +kernel
  have hle := hgrow uneven _ tr' s s' ⟨tr, (Network.execute_run .nil hs).run⟩
    (Network.execute_run .nil hs') hsecond.1 5
  omega

end RidgeWalker.Cache
