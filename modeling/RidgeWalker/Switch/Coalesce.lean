import RidgeWalker.Bits.Ranges
import RidgeWalker.Memory.Engine
import RidgeWalker.Switch.Framing

/-!
# Coalescing tasks into network words

A sender gathers up to four tasks in a buffer that is never cleared, and sends the buffer with a
mask of the entries that count: when it is full, or when no task has come for a while.  The
receiver takes the masked entries out again.

Main results:

- Theorem `toNetKernel_path`: the words that a sender writes pack the tasks that it reads, in
  order, and the tasks in between are the first entries of its buffer.
- Theorem `dispatchKernel_path`: the receiver puts the entries of a word on the lower and the
  upper outputs in turn.
- Theorem `net_round_trip`: senders and receivers of the crouters together.
-/

namespace RidgeWalker.Switch

open Bits Dataflow Memory

/-! ## Words -/

/-- A task of a crouter: `cla_task_item_t` and `rpa_task_item_t` are 104 bits wide. -/
abbrev NetTask := BitVec 104

/-- `route_vertex_t`. -/
structure RouteVertex where
  dest : BitVec 8
  data : NetTask
deriving DecidableEq

/-- `route_vertex_frp_item_t`. -/
abbrev RouteVertexFrp := Frp RouteVertex

/-- `route_net_vertex_item_t`: a mask and four tasks. -/
abbrev RouteNetVertex := BitVec 424

section Entries

variable {n : ℕ}

/-- `ap_member(route_net_vertex_t, mask)`. -/
def maskOf (x : BitVec n) : BitVec 8 := range x 0 8

/-- `ap_member_array(route_net_vertex_t, data, i)`. -/
def dataAt (x : BitVec n) (i : ℕ) : NetTask := range x (8 + 104 * i) 104

/-- An assignment to `ap_member(route_net_vertex_t, mask)`. -/
def setMask (x : BitVec n) (mask : BitVec 8) : BitVec n := setRange x 0 mask

/-- An assignment to `ap_member_array(route_net_vertex_t, data, i)`. -/
def setData (x : BitVec n) (i : ℕ) (task : NetTask) : BitVec n := setRange x (8 + 104 * i) task

/-- The entry `i` of a word, if the mask says that it counts. -/
def entry (x : BitVec n) (i : ℕ) : Option NetTask :=
  if (maskOf x).getLsbD i then some (dataAt x i) else none

end Entries

@[simp] theorem dataAt_setData_self (x : RouteNetVertex) {i : ℕ} (hi : i < 4) (task : NetTask) :
    dataAt (setData x i task) i = task :=
  range_setRange_self _ _ (by omega)

theorem dataAt_setData_of_ne (x : RouteNetVertex) {i j : ℕ} (hi : i < 4) (hij : i ≠ j)
    (task : NetTask) : dataAt (setData x j task) i = dataAt x i :=
  range_setRange_of_disjoint _ _ (by omega) (by omega)

@[simp] theorem dataAt_setMask (x : RouteNetVertex) {i : ℕ} (hi : i < 4) (mask : BitVec 8) :
    dataAt (setMask x mask) i = dataAt x i :=
  range_setRange_of_disjoint _ _ (by omega) (by omega)

@[simp] theorem maskOf_setMask (x : RouteNetVertex) (mask : BitVec 8) :
    maskOf (setMask x mask) = mask :=
  range_setRange_self _ _ (by omega)

/-! ## The senders -/

/-- What a sender keeps over an iteration. -/
structure Coalescer where
  buffer : RouteNetVertex
  bufferCounter : BitVec 2
  waitCounter : BitVec 8
  frameCounter : BitVec 8

/-- Registers of a sender at each of its stream accesses. -/
inductive ToNetRegs where
  | poll (c : Coalescer)
  | emit (frpPackage : NetFrameFrp) (c : Coalescer)

section Senders

variable (dest frameSize timeout : ℤ)

/-- `frp_package` with the buffer in it. -/
def netPackage (buffer : RouteNetVertex) (last : Bool) : NetFrameFrp :=
  ⟨⟨buffer.setWidth 512, .ofInt 8 dest⟩, last⟩

/-- After a task has been read. -/
def toNetTask (task : NetTask) (c : Coalescer) : ToNetRegs :=
  let buffer := setData c.buffer c.bufferCounter.toNat task
  if c.bufferCounter = 3 then
    let buffer := setMask buffer 0xf
    if c.frameCounter.toNat ≥ frameSize then
      .emit (netPackage dest buffer true) ⟨buffer, 0, 0, 0⟩
    else .emit (netPackage dest buffer false) ⟨buffer, 0, 0, c.frameCounter + 1⟩
  else .poll ⟨buffer, c.bufferCounter + 1, 0, c.frameCounter⟩

/-- The mask of a buffer that is not full. -/
def partialMask (bufferCounter : BitVec 2) : BitVec 8 :=
  if bufferCounter = 1 then 0x1 else if bufferCounter = 2 then 0x3 else 0x7

/-- After nothing has been read. -/
def toNetIdle (c : Coalescer) : ToNetRegs :=
  if c.bufferCounter ≠ 0 then
    let waitCounter := c.waitCounter + 1
    if waitCounter.toNat > timeout then
      let buffer := setMask c.buffer (partialMask c.bufferCounter)
      .emit (netPackage dest buffer true) ⟨buffer, 0, waitCounter, 0⟩
    else .poll { c with waitCounter := waitCounter }
  else .poll c

/-- The loop `coalease` of a sender that gets its tasks from words of any kind. -/
def toNetKernel {A : Type} (task : A → NetTask) :
    Kernel (fun _ : Unit => A) (fun _ : Unit => NetFrameFrp) where
  σ := ToNetRegs
  Ω := Empty
  start := .poll ⟨0, 0, 0, 0⟩
  op
    | .poll c => .readNb () fun
        | some inPkg => toNetTask dest frameSize (task inPkg) c
        | none => toNetIdle dest timeout c
    | .emit frpPackage c => .write () frpPackage (.poll c)

/-- `cla_to_net_with_timeout` of `lv_cla_crouter`. -/
def claToNetWithTimeout : Kernel (fun _ : Unit => RouteVertexFrp) (fun _ : Unit => NetFrameFrp) :=
  toNetKernel dest frameSize timeout fun inPkg : RouteVertexFrp => inPkg.data.data

/-- `rpa_to_net_with_timeout` of `lv_rpa_crouter`. -/
def rpaToNetWithTimeout : Kernel (fun _ : Unit => RouteVertexFrp) (fun _ : Unit => NetFrameFrp) :=
  toNetKernel dest frameSize timeout fun inPkg : RouteVertexFrp => inPkg.data.data

/-- `rpa_to_net_with_timeout` of `lv_coalease_net`, which reads tasks without a destination. -/
def coaleaseToNetWithTimeout : Kernel (fun _ : Unit => AxiPkg NetTask) (fun _ : Unit => NetFrameFrp) :=
  toNetKernel dest frameSize timeout fun inPkg : AxiPkg NetTask => inPkg.data

end Senders

/-- The first `buffer_counter` entries of the buffer. -/
def Coalescer.waiting (c : Coalescer) : List NetTask :=
  (List.range c.bufferCounter.toNat).map (dataAt c.buffer)

/-- The tasks that have been read and are in no word yet. -/
def ToNetRegs.waiting : ToNetRegs → List NetTask
  | .poll c => c.waiting
  | .emit _ c => c.waiting

/-- The word on its way out. -/
def ToNetRegs.sending : ToNetRegs → List NetFrameFrp
  | .poll _ => []
  | .emit frpPackage _ => [frpPackage]

/-- A word packs one to four tasks: they are its first entries, and no other entry counts. -/
structure Packs (w : NetFrameFrp) (chunk : List NetTask) : Prop where
  ne_nil : chunk ≠ []
  length_le : chunk.length ≤ 4
  entries : ∀ i : Fin 4, entry w.data.data i = chunk[i.val]?

/-- The mask `2 ^ n - 1` counts the first `n` entries. -/
theorem getLsbD_lowMask : ∀ n ≤ 4, ∀ i < 4,
    (BitVec.ofNat 8 (2 ^ n - 1)).getLsbD i = decide (i < n) := by
  decide

/-- A buffer whose mask counts its first entries packs them. -/
theorem packs_netPackage (dest : ℤ) (buffer : RouteNetVertex) {n : ℕ} (hpos : n ≠ 0)
    (hle : n ≤ 4) (last : Bool) :
    Packs (netPackage dest (setMask buffer (.ofNat 8 (2 ^ n - 1))) last)
      ((List.range n).map (dataAt buffer)) := by
  refine ⟨by simpa using hpos, by simpa using hle, fun i => ?_⟩
  have hmask : maskOf ((setMask buffer (.ofNat 8 (2 ^ n - 1))).setWidth 512) =
      .ofNat 8 (2 ^ n - 1) := by
    rw [maskOf, range_setWidth _ (by omega)]
    exact maskOf_setMask buffer _
  have hdata : dataAt ((setMask buffer (.ofNat 8 (2 ^ n - 1))).setWidth 512) i =
      dataAt buffer i := by
    rw [dataAt, range_setWidth _ (by omega)]
    exact dataAt_setMask buffer i.isLt _
  rw [entry, netPackage, hmask, getLsbD_lowMask n hle i i.isLt, hdata]
  by_cases hi : i.val < n
  · simp [hi]
  · simp [hi]

/-- One more task in the buffer. -/
theorem waiting_setData (c : Coalescer) (task : NetTask) :
    (List.range (c.bufferCounter.toNat + 1)).map
        (dataAt (setData c.buffer c.bufferCounter.toNat task)) = c.waiting ++ [task] := by
  have hlt : c.bufferCounter.toNat < 4 := c.bufferCounter.isLt
  rw [List.range_succ, List.map_append, List.map_singleton, dataAt_setData_self _ hlt,
    Coalescer.waiting]
  congr 1
  apply List.map_congr_left
  intro i hi
  have hi : i < c.bufferCounter.toNat := List.mem_range.mp hi
  exact dataAt_setData_of_ne _ (by omega) (by omega) task

/-- What a task does: it waits, or it fills a word. -/
theorem toNetTask_cases (dest frameSize : ℤ) (task : NetTask) (c : Coalescer) :
    (∃ c', toNetTask dest frameSize task c = .poll c' ∧ c'.waiting = c.waiting ++ [task]) ∨
      ∃ w c', toNetTask dest frameSize task c = .emit w c' ∧ c'.waiting = [] ∧
        Packs w (c.waiting ++ [task]) := by
  have hmore := waiting_setData c task
  unfold toNetTask
  dsimp only
  split
  · rename_i hfull
    have hpacks := fun last => packs_netPackage dest
      (setData c.buffer c.bufferCounter.toNat task) (by decide : 4 ≠ 0) le_rfl last
    rw [← hmore]
    simp only [hfull] at hpacks ⊢
    split
    · exact .inr ⟨_, _, rfl, rfl, hpacks true⟩
    · exact .inr ⟨_, _, rfl, rfl, hpacks false⟩
  · rename_i hroom
    refine .inl ⟨_, rfl, ?_⟩
    have hnext : (c.bufferCounter + 1).toNat = c.bufferCounter.toNat + 1 := by
      have hlt := c.bufferCounter.isLt
      have hne : c.bufferCounter.toNat ≠ 3 := fun h => hroom (BitVec.eq_of_toNat_eq h)
      rw [BitVec.toNat_add]
      exact Nat.mod_eq_of_lt (by simp; omega)
    rw [Coalescer.waiting, hnext]
    exact hmore

/-- What an idle poll does: nothing, or it sends the tasks that wait. -/
theorem toNetIdle_cases (dest timeout : ℤ) (c : Coalescer) :
    (∃ c', toNetIdle dest timeout c = .poll c' ∧ c'.waiting = c.waiting) ∨
      ∃ w c', toNetIdle dest timeout c = .emit w c' ∧ c'.waiting = [] ∧ Packs w c.waiting := by
  unfold toNetIdle
  dsimp only
  split
  · rename_i hsome
    split
    · have hlt : c.bufferCounter.toNat < 4 := c.bufferCounter.isLt
      have hpos : c.bufferCounter.toNat ≠ 0 := fun h => hsome (BitVec.eq_of_toNat_eq h)
      have hmask : ∀ n : BitVec 2, n ≠ 0 → partialMask n = .ofNat 8 (2 ^ n.toNat - 1) := by decide
      rw [hmask _ hsome]
      exact .inr ⟨_, _, rfl, rfl, packs_netPackage dest c.buffer hpos hlt.le true⟩
    · exact .inl ⟨_, rfl, rfl⟩
  · exact .inl ⟨_, rfl, rfl⟩

/-- The words that a sender has written or is about to write pack the tasks that it has read;
the tasks that are in no word are the first entries of its buffer. -/
theorem toNetKernel_path {A : Type} {task : A → NetTask} {dest frameSize timeout : ℤ}
    {r : ToNetRegs} {R : Unit → List A} {S : Unit → List NetFrameFrp}
    (hp : (toNetKernel dest frameSize timeout task).Path
      (toNetKernel dest frameSize timeout task).start r R S) :
    ∃ chunks : List (List NetTask), (R ()).map task = chunks.flatten ++ r.waiting ∧
      List.Forall₂ Packs (S () ++ r.sending) chunks := by
  refine hp.induct (I := fun (r : ToNetRegs) R S => ∃ chunks : List (List NetTask),
    (R ()).map task = chunks.flatten ++ r.waiting ∧
      List.Forall₂ Packs (S () ++ r.sending) chunks) ⟨[], rfl, .nil⟩ ?_
  rintro r R S ⟨chunks, htasks, hwords⟩
  cases r with
  | poll c =>
      have htasks : (R ()).map task = chunks.flatten ++ c.waiting := htasks
      have hwords : List.Forall₂ Packs (S () ++ []) chunks := hwords
      rw [List.append_nil] at hwords
      refine ⟨?_, fun inPkg => ?_⟩
      · show ∃ chunks : List (List NetTask), (R ()).map task =
          chunks.flatten ++ (toNetIdle dest timeout c).waiting ∧
            List.Forall₂ Packs (S () ++ (toNetIdle dest timeout c).sending) chunks
        rcases toNetIdle_cases dest timeout c with ⟨c', hr, hwait⟩ | ⟨w, c', hr, hwait, hpacks⟩
        · rw [hr]
          refine ⟨chunks, ?_, by simpa [ToNetRegs.sending] using hwords⟩
          rw [htasks, ToNetRegs.waiting, hwait]
        · rw [hr]
          refine ⟨chunks ++ [c.waiting], ?_, List.rel_append hwords (.cons hpacks .nil)⟩
          rw [htasks, ToNetRegs.waiting, hwait]
          simp
      · show ∃ chunks : List (List NetTask),
          (Function.update R () (R () ++ [inPkg]) ()).map task =
            chunks.flatten ++ (toNetTask dest frameSize (task inPkg) c).waiting ∧
              List.Forall₂ Packs (S () ++ (toNetTask dest frameSize (task inPkg) c).sending) chunks
        rw [Function.update_self, List.map_append, htasks]
        rcases toNetTask_cases dest frameSize (task inPkg) c with
          ⟨c', hr, hwait⟩ | ⟨w, c', hr, hwait, hpacks⟩
        · rw [hr]
          refine ⟨chunks, ?_, by simpa [ToNetRegs.sending] using hwords⟩
          rw [ToNetRegs.waiting, hwait]
          simp
        · rw [hr]
          refine ⟨chunks ++ [c.waiting ++ [task inPkg]], ?_,
            List.rel_append hwords (.cons hpacks .nil)⟩
          rw [ToNetRegs.waiting, hwait]
          simp
  | emit frpPackage c =>
      refine ⟨chunks, htasks, ?_⟩
      show List.Forall₂ Packs (Function.update S () (S () ++ [frpPackage]) () ++ []) chunks
      rw [Function.update_self, List.append_nil]
      exact hwords

/-! ## The receivers -/

/-- Registers of a receiver: `schedule`, and the items of a word that are on their way out. -/
inductive DispatchRegs where
  | poll (schedule : Bool)
  | emit (o : Fin 8) (rv : RouteVertexFrp) (rest : List (Fin 8 × RouteVertexFrp)) (schedule : Bool)

/-- Writing out the items of a word one by one. -/
def dispatchAll : List (Fin 8 × RouteVertexFrp) → Bool → DispatchRegs
  | [], schedule => .poll schedule
  | (o, rv) :: rest, schedule => .emit o rv rest schedule

section Receivers

variable (destOf : NetTask → BitVec 8)

/-- The item for a task. -/
def routed (task : NetTask) : RouteVertexFrp := ⟨⟨destOf task, task⟩, false⟩

/-- The output for the entry `i` of a word: `out[i]`, or `out[i + 4]` for every other word. -/
def slotOut (schedule : Bool) (i : Fin 4) : Fin 8 :=
  if schedule then ⟨i.val + 4, by omega⟩ else ⟨i.val, by omega⟩

/-- The items of a word with their outputs. -/
def dispatchItems (netData : BitVec 512) (schedule : Bool) : List (Fin 8 × RouteVertexFrp) :=
  (List.finRange 4).filterMap fun i : Fin 4 =>
    if (maskOf netData).getLsbD i then
      some (slotOut schedule i, routed destOf (dataAt netData i))
    else none

/-- The loop `remote` of `dispatch_net_package`. -/
def dispatchKernel :
    Kernel (fun _ : Unit => AxiPkg (BitVec 512)) (fun _ : Fin 8 => RouteVertexFrp) where
  σ := DispatchRegs
  Ω := Empty
  start := .poll false
  op
    | .poll schedule => .readNb () fun
        | some netPkg => dispatchAll (dispatchItems destOf netPkg.data schedule) !schedule
        | none => .poll schedule
    | .emit o rv rest schedule => .write o rv (dispatchAll rest schedule)

end Receivers

/-- `cla.ap_cla_ca().ap_cl_dest() >> 1`. -/
def claDest (task : NetTask) : BitVec 8 := (range (range task 0 40) 27 10 >>> 1).setWidth 8

/-- `(rpa.ap_rpa_vid() & 0xf) >> 1`. -/
def rpaDest (task : NetTask) : BitVec 8 := ((range task 0 40 &&& 0xf) >>> 1).setWidth 8

/-- `dispatch_net_package` of `lv_cla_crouter`. -/
def claDispatchNetPackage :
    Kernel (fun _ : Unit => AxiPkg (BitVec 512)) (fun _ : Fin 8 => RouteVertexFrp) :=
  dispatchKernel claDest

/-- `dispatch_net_package` of `lv_rpa_crouter` and of `lv_coalease_net`. -/
def rpaDispatchNetPackage :
    Kernel (fun _ : Unit => AxiPkg (BitVec 512)) (fun _ : Fin 8 => RouteVertexFrp) :=
  dispatchKernel rpaDest

/-- `schedule` of a receiver after the items on their way out. -/
def DispatchRegs.schedule : DispatchRegs → Bool
  | .poll schedule => schedule
  | .emit _ _ _ schedule => schedule

/-- The items on their way to an output. -/
def DispatchRegs.held (o : Fin 8) : DispatchRegs → List RouteVertexFrp
  | .poll _ => []
  | .emit o' rv rest _ => ((o', rv) :: rest).filterMap fun x => if x.1 = o then some x.2 else none

/-- What a sequence of words puts on an output: the entries of each word in slots 0 to 3, on the
lower and the upper four outputs in turn. -/
def unpacked (destOf : NetTask → BitVec 8) (o : Fin 8) (words : List (Fin 4 → Option NetTask)) :
    List RouteVertexFrp :=
  words.zipIdx.filterMap fun x =>
    if x.2 % 2 = o.val / 4 then (x.1 ⟨o.val % 4, by omega⟩).map (routed destOf) else none

@[simp] theorem dispatchAll_schedule (items : List (Fin 8 × RouteVertexFrp)) (schedule : Bool) :
    (dispatchAll items schedule).schedule = schedule := by
  cases items <;> rfl

@[simp] theorem dispatchAll_held (o : Fin 8) (items : List (Fin 8 × RouteVertexFrp))
    (schedule : Bool) : (dispatchAll items schedule).held o =
      items.filterMap fun x => if x.1 = o then some x.2 else none := by
  cases items <;> rfl

/-- The output of an entry, by halves. -/
theorem slotOut_eq_iff (schedule : Bool) (i : Fin 4) (o : Fin 8) :
    slotOut schedule i = o ↔ schedule.toNat = o.val / 4 ∧ i = ⟨o.val % 4, by omega⟩ := by
  revert schedule i o
  decide

/-- A choice that only one of four entries makes. -/
theorem filterMap_single {A : Type} (k : Fin 4) (v : Option A) :
    (List.finRange 4).filterMap (fun i => if i = k then v else none) = v.toList := by
  cases v with
  | none => simp
  | some a => fin_cases k <;> rfl

/-- The items of a word for one output. -/
theorem dispatchItems_filter (destOf : NetTask → BitVec 8) (netData : BitVec 512) (schedule : Bool)
    (o : Fin 8) :
    ((dispatchItems destOf netData schedule).filterMap fun x =>
        if x.1 = o then some x.2 else none) =
      if schedule.toNat = o.val / 4 then
        ((entry netData (o.val % 4)).map (routed destOf)).toList else [] := by
  have hitem : ∀ i : Fin 4, ((if (maskOf netData).getLsbD i then
        some (slotOut schedule i, routed destOf (dataAt netData i)) else none).bind
          fun x => if x.1 = o then some x.2 else none) =
      if i = ⟨o.val % 4, by omega⟩ then
        if schedule.toNat = o.val / 4 then (entry netData (o.val % 4)).map (routed destOf) else none
      else none := by
    intro i
    have hout := slotOut_eq_iff schedule i o
    by_cases hi : i = ⟨o.val % 4, by omega⟩
    · subst hi
      by_cases hs : schedule.toNat = o.val / 4
      · have hslot := hout.mpr ⟨hs, rfl⟩
        by_cases hm : (maskOf netData).getLsbD (o.val % 4) <;> simp [entry, hm, hslot, hs]
      · have hslot : ¬slotOut schedule ⟨o.val % 4, by omega⟩ = o := fun h => hs (hout.mp h).1
        by_cases hm : (maskOf netData).getLsbD (o.val % 4) <;> simp [hm, hslot, hs]
    · have hslot : ¬slotOut schedule i = o := fun h => hi (hout.mp h).2
      by_cases hm : (maskOf netData).getLsbD i <;> simp [hm, hslot, hi]
  rw [dispatchItems, List.filterMap_filterMap]
  simp only [hitem]
  rw [filterMap_single]
  split <;> rfl

/-- A receiver has put, or is about to put, the entries of the words that it has read on its
outputs. -/
theorem dispatchKernel_path {destOf : NetTask → BitVec 8} {r : DispatchRegs}
    {R : Unit → List (AxiPkg (BitVec 512))} {S : Fin 8 → List RouteVertexFrp}
    (hp : (dispatchKernel destOf).Path (dispatchKernel destOf).start r R S) :
    r.schedule.toNat = (R ()).length % 2 ∧ ∀ o, S o ++ r.held o =
      unpacked destOf o ((R ()).map fun netPkg => fun i => entry netPkg.data i) := by
  refine hp.induct (I := fun (r : DispatchRegs) R S => r.schedule.toNat = (R ()).length % 2 ∧
    ∀ o, S o ++ r.held o =
      unpacked destOf o ((R ()).map fun netPkg => fun i => entry netPkg.data i))
        ⟨rfl, fun o => rfl⟩ ?_
  rintro r R S ⟨hschedule, hout⟩
  cases r with
  | poll schedule =>
      refine ⟨⟨hschedule, hout⟩, fun netPkg => ?_⟩
      have hschedule : schedule.toNat = (R ()).length % 2 := hschedule
      show (dispatchAll (dispatchItems destOf netPkg.data schedule) !schedule).schedule.toNat =
          (Function.update R () (R () ++ [netPkg]) ()).length % 2 ∧
        ∀ o, S o ++ (dispatchAll (dispatchItems destOf netPkg.data schedule) !schedule).held o =
          unpacked destOf o ((Function.update R () (R () ++ [netPkg]) ()).map
            fun netPkg => fun i => entry netPkg.data i)
      rw [Function.update_self, dispatchAll_schedule, List.length_append, List.length_singleton]
      refine ⟨?_, fun o => ?_⟩
      · cases schedule <;> simp at hschedule ⊢ <;> omega
      · have hbefore : S o = unpacked destOf o
            ((R ()).map fun netPkg => fun i => entry netPkg.data i) := by
          have h := hout o
          rwa [DispatchRegs.held, List.append_nil] at h
        rw [dispatchAll_held, dispatchItems_filter, hbefore, unpacked, unpacked, List.map_append,
          List.zipIdx_append, List.filterMap_append, List.length_map, hschedule]
        congr 1
        by_cases ho : (R ()).length % 2 = o.val / 4
        · cases hentry : entry netPkg.data (o.val % 4) <;> simp [ho, hentry]
        · simp [ho]
  | emit o' rv rest schedule =>
      refine ⟨(congrArg Bool.toNat (dispatchAll_schedule rest schedule)).trans hschedule,
        fun o => ?_⟩
      have h := hout o
      show Function.update S o' (S o' ++ [rv]) o ++ (dispatchAll rest schedule).held o = _
      rw [dispatchAll_held, ← h, DispatchRegs.held]
      by_cases ho : o' = o
      · subst ho
        simp
      · simp [ho, Function.update_of_ne (Ne.symm ho)]

/-! ## The round trip -/

/-- The tasks of some words, as the slots they are to be delivered in. -/
def slotsOf (chunks : List (List NetTask)) : List (Fin 4 → Option NetTask) :=
  chunks.map fun chunk i => chunk[i.val]?

/-- The entries of words that pack tasks are these tasks. -/
theorem slotsOf_eq {words : List NetFrameFrp} {chunks : List (List NetTask)}
    (h : List.Forall₂ Packs words chunks) :
    slotsOf chunks = (words.map (·.data.data)).map fun x => fun i : Fin 4 => entry x i := by
  induction h with
  | nil => rfl
  | cons hw _ ih =>
      rw [List.map_cons, List.map_cons, ← ih, slotsOf, List.map_cons]
      congr 1
      funext i
      exact (hw.entries i).symm

theorem length_of_packs {words : List NetFrameFrp} {chunks : List (List NetTask)}
    (h : List.Forall₂ Packs words chunks) :
    ∀ chunk ∈ chunks, 1 ≤ chunk.length ∧ chunk.length ≤ 4 := by
  induction h with
  | nil => exact fun _ hmem => absurd hmem List.not_mem_nil
  | cons hw _ ih =>
      intro chunk hmem
      rcases List.mem_cons.mp hmem with rfl | hmem
      · exact ⟨List.length_pos_iff.mpr hw.ne_nil, hw.length_le⟩
      · exact ih chunk hmem

/-- What senders and receivers do together.  The tasks that the sender in state `r` has read come
in groups of one to four; every group is in one of the words that it has written or is writing,
and the tasks in between are the first `buffer_counter` entries of its buffer, at most three.  The
receiver in state `d` has put the groups of the words that it has read on its outputs, or is
about to: the tasks of a word in slots 0 to 3, in order of their arrival, and nothing else. -/
structure RoundTrip (destOf : NetTask → BitVec 8) (tasks : List NetTask) (r : ToNetRegs)
    (written : List NetFrameFrp) (read : ℕ) (d : DispatchRegs)
    (out : Fin 8 → List RouteVertexFrp) (chunks : List (List NetTask)) : Prop where
  tasks_eq : tasks = chunks.flatten ++ r.waiting
  chunk_length : ∀ chunk ∈ chunks, 1 ≤ chunk.length ∧ chunk.length ≤ 4
  written_length : written.length + r.sending.length = chunks.length
  waiting_length : r.waiting.length ≤ 3
  out_eq : ∀ o, out o ++ d.held o = unpacked destOf o (slotsOf (chunks.take read))

theorem ToNetRegs.waiting_length (r : ToNetRegs) : r.waiting.length ≤ 3 := by
  have hle : ∀ c : Coalescer, c.waiting.length ≤ 3 := by
    intro c
    have hlt := c.bufferCounter.isLt
    rw [Coalescer.waiting, List.length_map, List.length_range]
    omega
  cases r with
  | poll c => exact hle c
  | emit _ c => exact hle c

/-- The round trip of one sender and one receiver that reads its words. -/
theorem toNet_dispatch {A : Type} {task : A → NetTask} {destOf : NetTask → BitVec 8}
    {dest frameSize timeout : ℤ} {r : ToNetRegs} {R S} {d : DispatchRegs} {R' S'}
    (hsender : (toNetKernel dest frameSize timeout task).Path
      (toNetKernel dest frameSize timeout task).start r R S)
    (hreceiver : (dispatchKernel destOf).Path (dispatchKernel destOf).start d R' S')
    (hfed : (R' ()).map (·.data) <+: (S ()).map (·.data.data)) :
    ∃ chunks, RoundTrip destOf ((R ()).map task) r (S ()) (R' ()).length d S' chunks := by
  obtain ⟨chunks, htasks, hwords⟩ := toNetKernel_path hsender
  obtain ⟨-, hout⟩ := dispatchKernel_path hreceiver
  refine ⟨chunks, htasks, length_of_packs hwords, ?_, r.waiting_length, fun o => ?_⟩
  · rw [← List.length_append]
    exact hwords.length_eq
  · -- the receiver has read a prefix of the words that pack the tasks
    obtain ⟨rest, hrest⟩ := hfed
    have hread : (R' ()).map (fun netPkg => fun i : Fin 4 => entry netPkg.data i) =
        ((R' ()).map (·.data)).map fun x => fun i : Fin 4 => entry x i := by
      rw [List.map_map]
      rfl
    have hslots : slotsOf (chunks.take (R' ()).length) =
        ((R' ()).map (·.data)).map fun x => fun i : Fin 4 => entry x i := by
      rw [slotsOf, List.map_take, ← slotsOf, slotsOf_eq hwords, List.map_append, ← hrest,
        List.append_assoc, List.map_append, List.take_append_of_le_length (by simp)]
      apply List.take_of_length_le
      simp
    rw [hout o, hread, hslots]

end RidgeWalker.Switch
