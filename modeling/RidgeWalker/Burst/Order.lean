import RidgeWalker.Burst.Mergers

/-!
# The order of the lines

Two sequences say in which order lines leave the mergers: that of the commands of `cmd_generator`,
and that of the descriptors that have lines.  Every line carries the number of its group in both.

Main results:

- Theorem `cmdGroups_carry`: the lines of the commands carry the numbers of the commands.
- Theorem `descriptorGroups_carry`: the lines of the descriptors carry theirs.
- Theorem `cmdGroups_lines`: the lines of the commands are those of the descriptors.
-/

namespace RidgeWalker.Burst

open Bits Dataflow Memory Cache Wrs

/-! ## Numbered dispatches -/

/-- Descriptors with their states and numbers; an empty one has no burst id. -/
def dispatches : ℕ → ℕ → List (AxiPkg VertexDescriptor) → List (BitVec 32) → List Dispatch
  | k, b, pkg :: D, state :: X =>
      if pkg.data.size = 0 then ⟨pkg, state, syncIds.num k, 0⟩ :: dispatches (k + 1) b D X
      else ⟨pkg, state, syncIds.num k, syncIds.num b⟩ :: dispatches (k + 1) (b + 1) D X
  | _, _, _, _ => []

theorem dispatches_isPrefix (k b : ℕ) {D D' : List (AxiPkg VertexDescriptor)}
    {X X' : List (BitVec 32)} (hD : D <+: D') (hX : X <+: X') :
    dispatches k b D X <+: dispatches k b D' X' := by
  induction D generalizing k b D' X X' with
  | nil => exact List.nil_prefix
  | cons pkg D ih =>
      obtain ⟨D'', rfl⟩ := hD
      cases X with
      | nil => exact List.nil_prefix
      | cons state X =>
          obtain ⟨X'', rfl⟩ := hX
          rw [List.cons_append, List.cons_append, dispatches, dispatches]
          split
          · exact List.cons_prefix_cons.mpr
              ⟨rfl, ih _ _ (List.prefix_append _ _) (List.prefix_append _ _)⟩
          · exact List.cons_prefix_cons.mpr
              ⟨rfl, ih _ _ (List.prefix_append _ _) (List.prefix_append _ _)⟩

theorem length_dispatches (k b : ℕ) (D : List (AxiPkg VertexDescriptor)) (X : List (BitVec 32)) :
    (dispatches k b D X).length = min D.length X.length := by
  induction D generalizing k b X with
  | nil => simp [dispatches]
  | cons pkg D ih =>
      cases X with
      | nil => simp [dispatches]
      | cons state X =>
          rw [dispatches]
          split <;> rw [List.length_cons, ih, List.length_cons, List.length_cons, Nat.add_min_add_right]

/-- What `vd_scheduler` sends does not depend on the burst id of an empty descriptor. -/
theorem dispatched_eq {maxLength k b : ℕ} {rounds : List Dispatch}
    (hids : rounds.map Dispatch.id = (List.range' k rounds.length).map syncIds.num)
    (hbursts : burstIds rounds = (List.range' b (burstIds rounds).length).map syncIds.num)
    (o : SchedulerOut) : dispatched maxLength rounds o =
      dispatched maxLength (dispatches k b (rounds.map Dispatch.pkg)
        (rounds.map Dispatch.updatedState)) o := by
  induction rounds generalizing k b with
  | nil => rfl
  | cons d rounds ih =>
      simp only [List.map_cons, List.length_cons, List.range'_succ, List.cons.injEq] at hids
      rw [List.map_cons, List.map_cons, dispatches]
      by_cases hsize : d.pkg.data.size = 0
      · have hempty : d.isEmpty = true := decide_eq_true hsize
        rw [burstIds, List.flatMap_cons, if_pos hempty] at hbursts
        rw [if_pos hsize, dispatched, List.flatMap_cons, dispatched, List.flatMap_cons]
        refine congrArg₂ _ ?_ (ih hids.2 hbursts)
        cases o <;> simp [Dispatch.sends, Dispatch.stops, Dispatch.isEmpty, hsize, hids.1,
          Dispatch.updatePkg]
      · have hempty : ¬d.isEmpty = true := by simpa [Dispatch.isEmpty] using hsize
        rw [burstIds, List.flatMap_cons, if_neg hempty, List.singleton_append, List.length_cons,
          List.range'_succ, List.map_cons, List.cons.injEq] at hbursts
        rw [if_neg hsize, dispatched, List.flatMap_cons, dispatched, List.flatMap_cons]
        refine congrArg₂ _ ?_ (ih hids.2 hbursts.2)
        rw [← hids.1, ← hbursts.1]

/-- The descriptors that have lines. -/
def asking (ds : List Dispatch) : List Dispatch := ds.filter fun d => !d.isEmpty

theorem asking_cons (d : Dispatch) (ds : List Dispatch) :
    asking (d :: ds) = if d.isEmpty then asking ds else d :: asking ds := by
  cases h : d.isEmpty <;> simp [asking, h]

theorem asking_isPrefix {ds ds' : List Dispatch} (h : ds <+: ds') : asking ds <+: asking ds' :=
  h.filter _

/-- The descriptors that have lines are numbered in order. -/
theorem burstId_asking (k b : ℕ) (D : List (AxiPkg VertexDescriptor)) (X : List (BitVec 32)) :
    (asking (dispatches k b D X)).map Dispatch.burstId =
      (List.range' b (asking (dispatches k b D X)).length).map syncIds.num := by
  induction D generalizing k b X with
  | nil => rfl
  | cons pkg D ih =>
      cases X with
      | nil => rfl
      | cons state X =>
          rw [dispatches]
          split
          · rename_i hsize
            rw [asking_cons, if_pos (by simpa [Dispatch.isEmpty] using hsize)]
            exact ih (k + 1) b X
          · rename_i hsize
            rw [asking_cons, if_neg (by simpa [Dispatch.isEmpty] using hsize), List.map_cons,
              List.length_cons, List.range'_succ, List.map_cons]
            exact congrArg _ (ih (k + 1) (b + 1) X)

/-- Dispatches are made of the descriptors and carry numbers. -/
theorem mem_dispatches {k b : ℕ} {D : List (AxiPkg VertexDescriptor)} {X : List (BitVec 32)} :
    ∀ d ∈ dispatches k b D X, d.pkg ∈ D ∧ ∃ i, d.id = syncIds.num i := by
  induction D generalizing k b X with
  | nil => simp [dispatches]
  | cons pkg D ih =>
      cases X with
      | nil => simp [dispatches]
      | cons state X =>
          rw [dispatches]
          split
          · refine List.forall_mem_cons.mpr ⟨⟨List.mem_cons_self, k, rfl⟩, fun d hd => ?_⟩
            obtain ⟨hpkg, hid⟩ := ih d hd
            exact ⟨List.mem_cons_of_mem _ hpkg, hid⟩
          · refine List.forall_mem_cons.mpr ⟨⟨List.mem_cons_self, k, rfl⟩, fun d hd => ?_⟩
            obtain ⟨hpkg, hid⟩ := ih d hd
            exact ⟨List.mem_cons_of_mem _ hpkg, hid⟩

/-! ## Numbers -/

theorem num_and_7fff (k : ℕ) : syncIds.num k &&& 0x7fff#16 = syncIds.num k := by
  have hnum : (syncIds.num k).toNat = k % 2 ^ 15 % 2 ^ 16 := BitVec.toNat_ofNat _ _
  apply BitVec.eq_of_toNat_eq
  rw [toNat_and_7fff, hnum]
  omega

theorem num_getLsbD_15 (k : ℕ) : (syncIds.num k).getLsbD 15 = false := by
  rw [← num_and_7fff, BitVec.getLsbD_and, show (0x7fff#16).getLsbD 15 = false from rfl,
    Bool.and_false]

/-- A number is no stop. -/
theorem num_and_8000 (k : ℕ) : syncIds.num k &&& 0x8000#16 = 0 := by
  rw [← num_and_7fff, BitVec.and_assoc, show 0x7fff#16 &&& 0x8000#16 = 0#16 from rfl, BitVec.and_zero]
  rfl

theorem or_8000_and_7fff (x : BitVec 16) : (x ||| 0x8000#16) &&& 0x7fff#16 = x &&& 0x7fff#16 := by
  apply BitVec.eq_of_getLsbD_eq
  intro i hi
  interval_cases i <;> simp

/-! ## The order of the commands -/

/-- The side of `intra_merge` that receives the lines of a command. -/
def CmdOut.side : CmdOut → Fin 2
  | .burst1Cmd => 0
  | .burst32Cmd => 1

/-- The commands that have lines. -/
def working (cs : List CmdSend) : List CmdSend := cs.filter fun c => !c.2.data.stops

/-- The lines of the commands, in order. -/
def cmdGroups (mem : ℕ → BitVec 32) (cs : List CmdSend) : List (Fin 2 × List LinePkgs) :=
  (working cs).map fun c => (c.1.side, cmdLines mem c)

theorem cmdLines_ne_nil (mem : ℕ → BitVec 32) (c : CmdSend) : cmdLines mem c ≠ [] := by
  obtain ⟨o, pkg⟩ := c
  cases o <;> simp [cmdLines, unitLines, CmdOut.burstLines, dynamicBurstMaxLength]

/-- The lines of a command carry its number, and only the last of them ends it. -/
theorem cmdLines_carry {mem : ℕ → BitVec 32} {c : CmdSend} {k : ℕ}
    (hid : c.2.data.dynamicId = syncIds.num k) :
    CarriesGroup (fun x : LinePkgs => dynamicKey x.1) (fun x => dynamicEnds x.1) (syncIds.num k)
      (cmdLines mem c) := by
  intro j x hx
  rw [cmdLines, unitLines, List.getElem?_map] at hx
  obtain ⟨i, hi, rfl⟩ := Option.map_eq_some_iff.mp hx
  obtain ⟨hj, rfl⟩ := List.getElem?_eq_some_iff.mp hi
  rw [List.getElem_range]
  have hlength : (cmdLines mem c).length = c.1.burstLines := by simp [cmdLines, unitLines]
  rw [hlength]
  by_cases hlast : j + 1 = c.1.burstLines
  · simp only [dynamicKey, dynamicEnds, BurstCmd.dynamicSync, hlast, if_true, hid]
    refine ⟨?_, ?_⟩
    · rw [or_8000_and_7fff, num_and_7fff]
    · rw [BitVec.getLsbD_or, show (0x8000#16).getLsbD 15 = true from rfl, Bool.or_true,
        decide_true]
  · simp only [dynamicKey, dynamicEnds, BurstCmd.dynamicSync, hlast, if_false, hid, decide_false]
    exact ⟨num_and_7fff k, num_getLsbD_15 k⟩

/-- The lines of the commands carry the numbers of the commands. -/
theorem cmdGroups_carry {mem : ℕ → BitVec 32} {cs : List CmdSend}
    (hids : (working cs).map (fun c => c.2.data.dynamicId) =
      (List.range (working cs).length).map syncIds.num) {i : ℕ} {g : Fin 2 × List LinePkgs}
    (hg : (cmdGroups mem cs)[i]? = some g) :
    CarriesGroup (fun x : LinePkgs => dynamicKey x.1) (fun x => dynamicEnds x.1) (syncIds.num i)
      g.2 := by
  rw [cmdGroups, List.getElem?_map] at hg
  obtain ⟨c, hc, rfl⟩ := Option.map_eq_some_iff.mp hg
  refine cmdLines_carry ?_
  have hi := congrArg (·[i]?) hids
  obtain ⟨hlt, -⟩ := List.getElem?_eq_some_iff.mp hc
  simp only [List.getElem?_map, hc, List.getElem?_range hlt, Option.map_some,
    Option.some.injEq] at hi
  exact hi

/-! ## The commands of descriptors -/

/-- The commands of a descriptor carry its id. -/
theorem decompose_id {maxLength : ℕ} {pkg : AxiPkg VertexDescriptorOrdered} {fuel : ℕ} {l l' : Loop}
    {cmds : List CmdSend} (h : decompose maxLength pkg fuel l = some (cmds, l')) :
    ∀ c ∈ cmds, c.2.data.id = pkg.data.id := by
  induction fuel generalizing l cmds with
  | zero =>
      rw [decompose] at h
      split at h
      · cases h
        simp
      · cases h
  | succ fuel ih =>
      rw [decompose] at h
      split at h
      · cases h
        simp
      · obtain ⟨⟨rest, l''⟩, hrest, heq⟩ := Option.map_eq_some_iff.mp h
        cases heq
        exact List.forall_mem_cons.mpr ⟨rfl, ih hrest⟩

/-- A descriptor counts, or all its commands are stops. -/
theorem working_decompose {maxLength : ℕ} {pkg : AxiPkg VertexDescriptorOrdered} {fuel : ℕ}
    {l l' : Loop} {cmds : List CmdSend} (h : decompose maxLength pkg fuel l = some (cmds, l')) :
    working cmds = if pkg.data.counts then cmds else [] := by
  have hstops : ∀ c ∈ cmds, c.2.data.stops = !pkg.data.counts := by
    intro c hc
    rw [BurstCmd.stops, VertexDescriptorOrdered.counts, decompose_id h c hc, decide_not]
  cases hcounts : pkg.data.counts
  · exact List.filter_eq_nil_iff.mpr fun c hc => by simp [hstops c hc, hcounts]
  · exact List.filter_eq_self.mpr fun c hc => by simp [hstops c hc, hcounts]

/-- The commands that have lines are those of the descriptors that count. -/
theorem working_flatten {maxLength fuel : ℕ} {pkgs : List (AxiPkg VertexDescriptorOrdered)}
    {cmds : List (List CmdSend)} {dynamicBurstId : BitVec 16}
    (h : cmdGenerator maxLength fuel pkgs dynamicBurstId = some cmds) :
    working cmds.flatten = (pkgs.zip cmds).flatMap fun x => if x.1.data.counts then x.2 else [] := by
  induction pkgs generalizing cmds dynamicBurstId with
  | nil =>
      cases h
      rfl
  | cons pkg pkgs ih =>
      rw [cmdGenerator] at h
      split at h
      · cases h
      · rename_i first l hfirst
        obtain ⟨rest, hrest, rfl⟩ := Option.map_eq_some_iff.mp h
        have happend : working (first ++ rest.flatten) = working first ++ working rest.flatten :=
          List.filter_append _ _
        rw [List.flatten_cons, happend, working_decompose hfirst, ih hrest, List.zip_cons_cons,
          List.flatMap_cons]

/-- The commands that have lines are numbered in order. -/
theorem dynamicId_working {fuel : ℕ} {pkgs : List (AxiPkg VertexDescriptorOrdered)}
    {cmds : List (List CmdSend)}
    (h : cmdGenerator dynamicBurstMaxLength fuel pkgs 0 = some cmds) :
    (working cmds.flatten).map (fun c => c.2.data.dynamicId) =
      (List.range (working cmds.flatten).length).map syncIds.num := by
  have hids : (working cmds.flatten).map (fun c => c.2.data.dynamicId) = dynamicIds pkgs cmds := by
    rw [working_flatten h, List.map_flatMap, dynamicIds]
    congr 1
    funext x
    split <;> rfl
  have hcount := cmdGenerator_ids (k := 0) h
  rw [← List.range_eq_range', ← hids, List.length_map] at hcount
  exact hcount

/-- The lines of the commands are those of the descriptors that count. -/
theorem cmdGroups_lines {fuel : ℕ} {pkgs : List (AxiPkg VertexDescriptorOrdered)}
    {cmds : List (List CmdSend)} {dynamicBurstId : BitVec 16} (mem : ℕ → BitVec 32)
    (h : cmdGenerator dynamicBurstMaxLength fuel pkgs dynamicBurstId = some cmds)
    (hpkgs : ∀ pkg ∈ pkgs, pkg.data.counts = true → InRange pkg.data ∧ Stops pkg.data) :
    ((cmdGroups mem cmds.flatten).flatMap Prod.snd).map sentLine =
      (pkgs.filter fun pkg => pkg.data.counts).flatMap (orderedLines · mem) := by
  rw [cmdGroups, List.flatMap_map, working_flatten h]
  induction pkgs generalizing cmds dynamicBurstId with
  | nil =>
      cases h
      rfl
  | cons pkg pkgs ih =>
      obtain ⟨hpkg, hpkgs⟩ := List.forall_mem_cons.mp hpkgs
      rw [cmdGenerator] at h
      split at h
      · cases h
      · rename_i first l hfirst
        obtain ⟨rest, hrest, rfl⟩ := Option.map_eq_some_iff.mp h
        rw [List.zip_cons_cons, List.flatMap_cons, List.flatMap_append, List.map_append,
          ih hrest hpkgs]
        cases hcounts : pkg.data.counts
        · rw [List.filter_cons_of_neg (by simp [hcounts])]
          rfl
        · obtain ⟨hrange, hstops⟩ := hpkg hcounts
          rw [List.filter_cons_of_pos (by simpa using hcounts), List.flatMap_cons, if_pos rfl,
            List.map_flatMap, decompose_orderedLines hrange hstops mem hfirst]

/-! ## The order of the descriptors -/

/-- The side of `inter_merge` that receives the lines of a descriptor. -/
def Dispatch.side (d : Dispatch) : Fin 2 := if d.startAddr = d.endAddr then 0 else 1

/-- The lines of the descriptors, in order. -/
def descriptorGroups (mem : ℕ → BitVec 32) (ds : List Dispatch) : List (Fin 2 × List SentLine) :=
  (asking ds).map fun d => (d.side, orderedLines d.orderedPkg mem)

/-- The lines of a descriptor carry its number, and only the last of them ends it. -/
theorem orderedLines_carry {mem : ℕ → BitVec 32} {pkg : AxiPkg VertexDescriptorOrdered} {k : ℕ}
    (hid : pkg.data.burstId &&& 0x7fff#16 = syncIds.num k) :
    CarriesGroup (fun x : SentLine => x.1.burst) (fun x => x.1.ends) (syncIds.num k)
      (orderedLines pkg mem) := by
  intro j x hx
  rw [orderedLines, List.getElem?_map] at hx
  obtain ⟨i, hi, rfl⟩ := Option.map_eq_some_iff.mp hx
  obtain ⟨hj, rfl⟩ := List.getElem?_eq_some_iff.mp hi
  rw [List.getElem_range]
  exact ⟨hid, by simp [orderedLine, orderedLines]⟩

/-- The lines of the descriptors carry the numbers of the descriptors. -/
theorem descriptorGroups_carry {mem : ℕ → BitVec 32} {D : List (AxiPkg VertexDescriptor)}
    {X : List (BitVec 32)} {i : ℕ} {g : Fin 2 × List SentLine}
    (hg : (descriptorGroups mem (dispatches 0 0 D X))[i]? = some g) :
    CarriesGroup (fun x : SentLine => x.1.burst) (fun x => x.1.ends) (syncIds.num i) g.2 := by
  rw [descriptorGroups, List.getElem?_map] at hg
  obtain ⟨d, hd, rfl⟩ := Option.map_eq_some_iff.mp hg
  have hi := congrArg (·[i]?) (burstId_asking 0 0 D X)
  obtain ⟨hlt, -⟩ := List.getElem?_eq_some_iff.mp hd
  have hburst : d.burstId = syncIds.num i := by
    rw [← List.range_eq_range'] at hi
    simpa only [List.getElem?_map, hd, List.getElem?_range hlt, Option.map_some,
      Option.some.injEq] using hi
  refine orderedLines_carry ?_
  have hpkg : d.orderedPkg.data.burstId = d.burstId &&& 0x7fff#16 := rfl
  rw [hpkg, hburst, num_and_7fff, num_and_7fff]

/-! ## What the processes send -/

section Processes

variable {mem : ℕ → BitVec 32}

/-- Weights and tokens of pairs. -/
theorem sentTo_pairs (f : ℕ → DyWord .weight) (g : ℕ → DyWord .sync) (J : List ℕ) :
    sentTo UnitOut.burstSync
        (J.flatMap fun j => [(⟨.weightOutput, f j⟩ : UnitSend), ⟨.burstSync, g j⟩]) = J.map g ∧
      sentTo UnitOut.weightOutput
        (J.flatMap fun j => [(⟨.weightOutput, f j⟩ : UnitSend), ⟨.burstSync, g j⟩]) = J.map f := by
  induction J with
  | nil => exact ⟨rfl, rfl⟩
  | cons j J ih =>
      obtain ⟨hsync, hweight⟩ := ih
      simp only [List.flatMap_cons, List.cons_append, List.nil_append, List.map_cons]
      rw [sentTo_of_ne (by decide), sentTo_self, hsync, sentTo_self, sentTo_of_ne (by decide),
        hweight]
      exact ⟨rfl, rfl⟩

/-- What a burst process sends for a sequence of commands. -/
theorem burstProcess_sent (sync : BurstCmd → ℕ → BurstSync) (n : ℕ) (cmds : List (AxiPkg BurstCmd)) :
    sentTo UnitOut.burstSync ((burstProcess mem sync n).answers () cmds) =
        ((cmds.filter fun pkg => !pkg.data.stops).flatMap (unitLines mem sync n)).map Prod.fst ∧
      sentTo UnitOut.weightOutput ((burstProcess mem sync n).answers () cmds) =
        ((cmds.filter fun pkg => !pkg.data.stops).flatMap (unitLines mem sync n)).map Prod.snd := by
  induction cmds with
  | nil => exact ⟨rfl, rfl⟩
  | cons pkg cmds ih =>
      obtain ⟨hsync, hweight⟩ := ih
      have hanswers : (burstProcess mem sync n).answers () (pkg :: cmds) =
          burstSends mem sync n pkg ++ (burstProcess mem sync n).answers () cmds := rfl
      rw [hanswers, sentTo_append, sentTo_append, hsync, hweight, burstSends]
      by_cases hstops : pkg.data.stops = true
      · rw [if_pos hstops, List.filter_cons_of_neg (by simp [hstops])]
        exact ⟨rfl, rfl⟩
      · obtain ⟨hsyncs, hweights⟩ := sentTo_pairs (fun j => ⟨pkg.data.maskedOut mem j, pkg.last⟩)
          (fun j => ⟨sync pkg.data j, pkg.last⟩) (List.range n)
        rw [if_neg hstops, List.filter_cons_of_pos (by simp [hstops]), hsyncs, hweights,
          List.flatMap_cons, List.map_append, List.map_append, unitLines, List.map_map,
          List.map_map]
        exact ⟨rfl, rfl⟩

variable (mem) in
/-- The lines of the commands of one side of `intra_merge`. -/
theorem sentTo_lines (o : CmdOut) (cs : List CmdSend) :
    ((sentTo o cs).filter fun pkg => !pkg.data.stops).flatMap
        (unitLines mem (BurstCmd.dynamicSync · o.burstLines) o.burstLines) =
      ((cmdGroups mem cs).filter fun g => g.1 = o.side).flatMap Prod.snd := by
  have hside : ∀ o' : CmdOut, o'.side = o.side ↔ o' = o := by
    intro o'
    cases o <;> cases o' <;> decide
  induction cs with
  | nil => rfl
  | cons c cs ih =>
      obtain ⟨o', pkg⟩ := c
      rw [cmdGroups, working, List.filter_cons]
      rw [cmdGroups, working] at ih
      by_cases ho : o' = o
      · subst ho
        rw [sentTo_self, List.filter_cons]
        by_cases hstops : pkg.data.stops = true
        · simpa [hstops] using ih
        · rw [if_pos (by simpa using hstops), if_pos (by simpa using hstops), List.map_cons,
            List.filter_cons_of_pos (by simp), List.flatMap_cons, List.flatMap_cons, ih]
          rfl
      · rw [sentTo_of_ne ho, ih]
        have hne : o'.side ≠ o.side := fun heq => ho ((hside o').mp heq)
        split
        · rw [List.map_cons, List.filter_cons_of_neg (by simpa using hne)]
        · rfl

/-- A descriptor that fits into a line is sent as one. -/
theorem singleCmd_lines {d : Dispatch} (hside : d.startAddr = d.endAddr)
    (hrange : InRange d.orderedPkg.data) :
    (unitLines mem BurstCmd.singleSync 1 d.singleCmd).map sentLine =
      orderedLines d.orderedPkg mem := by
  have hsize : 0 < d.pkg.data.size.toNat := hrange.size
  have hend : d.pkg.data.start.toNat + d.pkg.data.size.toNat < 2 ^ 32 - 16 := hrange.end_
  have hstart : d.startAddr.toNat = d.pkg.data.start.toNat / 16 * 16 := toNat_and_fffffff0 _
  have hsum : (d.pkg.data.start + d.pkg.data.size).toNat =
      d.pkg.data.start.toNat + d.pkg.data.size.toNat := by
    rw [BitVec.toNat_add, Nat.mod_eq_of_lt (by omega)]
  have hcount : lineCount d.pkg.data.start d.pkg.data.size = 1 := by
    have hinclusive : (d.pkg.data.start + d.pkg.data.size - 1#32).toNat =
        d.pkg.data.start.toNat + d.pkg.data.size.toNat - 1 := by
      have hone : (1#32).toNat = 1 := rfl
      rw [BitVec.toNat_sub, hsum, hone]
      omega
    have hlast : d.endAddr.toNat =
        (d.pkg.data.start.toNat + d.pkg.data.size.toNat - 1) / 16 * 16 := by
      rw [← hinclusive]
      exact toNat_and_fffffff0 _
    have hnat := congrArg BitVec.toNat hside
    rw [lineCount]
    omega
  have hpkg : lineCount d.orderedPkg.data.start d.orderedPkg.data.size = 1 := hcount
  have hburstEnd : burstEnd d.pkg.data.start d.pkg.data.size 0 = 1 := by
    rw [burstEnd_eq, hcount]
    rfl
  have hmask : maskLine d.pkg.data.start d.pkg.data.size 0 = 0 := by
    rw [maskLine_eq, hcount]
    rfl
  have haddr : d.startAddr = lineAddr d.pkg.data.start 0 := by
    apply BitVec.eq_of_toNat_eq
    rw [hstart, lineAddr, BitVec.toNat_ofNat]
    omega
  rw [orderedLines, hpkg]
  refine congrArg (fun x => [x]) (Prod.ext ?_ ?_)
  · simp only [sentLine, lineToken, BurstCmd.singleSync, Dispatch.singleCmd, orderedLine,
      Dispatch.orderedPkg, LineToken.mk.injEq, hburstEnd, hcount, decide_true, Bool.true_and]
    refine ⟨?_, trivial, or_8000_and_7fff _, trivial, ?_, trivial⟩
    · rw [Nat.zero_mul, BitVec.add_zero, haddr]
    · rw [BitVec.getLsbD_or, show (0x8000#16).getLsbD 15 = true from rfl, Bool.or_true]
  · simp only [sentLine, orderedLine, Dispatch.orderedPkg, hburstEnd, hcount, decide_true,
      Bool.true_and, AxiPkg.mk.injEq]
    refine ⟨?_, rfl⟩
    funext k
    have hmaskStart : d.singleCmd.data.start.toNat = d.pkg.data.start.toNat := rfl
    have hmasked : d.singleCmd.data.maskedOut mem 0 k = _ :=
      maskedOut_apply hstart hmaskStart hsum mem 0 k
    simp only [hmasked, vertexLine, hmask, Nat.add_zero]

end Processes

/-! ## What `vd_scheduler` sends -/

section Dispatches

variable {mem : ℕ → BitVec 32} {maxLength : ℕ} {ds : List Dispatch}

/-- The commands of `single_burst` that have lines. -/
theorem dispatched_single (hids : ∀ d ∈ ds, ∃ i, d.id = syncIds.num i) :
    (dispatched maxLength ds .singleBurst).filter (fun pkg => !pkg.data.stops) =
      ((asking ds).filter fun d => d.side = 0).map Dispatch.singleCmd := by
  induction ds with
  | nil => rfl
  | cons d ds ih =>
      obtain ⟨⟨i, hid⟩, hids⟩ := List.forall_mem_cons.mp hids
      have hcmd : d.singleCmd.data.stops = false := by
        have hid' : d.singleCmd.data.id = syncIds.num i := hid
        rw [BurstCmd.stops, hid', num_and_8000]
        rfl
      have hstop : stopSingleCmd.data.stops = true := by decide
      have hstops : (d.stops maxLength .singleBurst).filter (fun pkg => !pkg.data.stops) = [] := by
        simp only [Dispatch.stops]
        split
        · rw [List.filter_cons_of_neg (by simp [hstop]), List.filter_nil]
        · rfl
      rw [dispatched, List.flatMap_cons, List.filter_append, List.filter_append, hstops,
        List.append_nil]
      refine (congrArg _ (ih hids)).trans ?_
      rw [asking_cons]
      by_cases hempty : d.isEmpty = true
      · simp [Dispatch.sends, hempty]
      · by_cases hside : d.startAddr = d.endAddr <;>
          simp [Dispatch.sends, hempty, hside, Dispatch.side, hcmd]

/-- The descriptors of `cmd_generator` that have lines. -/
theorem dispatched_ordered (hids : ∀ d ∈ ds, ∃ i, d.id = syncIds.num i) :
    (dispatched maxLength ds .dynamicBurstVd).filter (fun pkg => pkg.data.counts) =
      ((asking ds).filter fun d => d.side = 1).map Dispatch.orderedPkg := by
  induction ds with
  | nil => rfl
  | cons d ds ih =>
      obtain ⟨⟨i, hid⟩, hids⟩ := List.forall_mem_cons.mp hids
      have hpkg : d.orderedPkg.data.counts = true := by
        have hid' : d.orderedPkg.data.id = syncIds.num i := hid
        rw [VertexDescriptorOrdered.counts, hid', num_and_8000]
        rfl
      have hstop : (stopOrderedPkg maxLength).data.counts = false :=
        (by decide : decide (0x8000#16 &&& 0x8000#16 = 0) = false)
      have hstops : (d.stops maxLength .dynamicBurstVd).filter (fun pkg => pkg.data.counts) = [] := by
        simp only [Dispatch.stops]
        split
        · rw [List.filter_cons_of_neg (by simp [hstop]), List.filter_nil]
        · rfl
      rw [dispatched, List.flatMap_cons, List.filter_append, List.filter_append, hstops,
        List.append_nil]
      refine (congrArg _ (ih hids)).trans ?_
      rw [asking_cons]
      by_cases hempty : d.isEmpty = true
      · simp [Dispatch.sends, hempty]
      · by_cases hside : d.startAddr = d.endAddr <;>
          simp [Dispatch.sends, hempty, hside, Dispatch.side, hpkg]

/-- A side of `inter_merge`. -/
theorem descriptorGroups_side (c : Fin 2) :
    ((descriptorGroups mem ds).filter fun g => g.1 = c).flatMap Prod.snd =
      ((asking ds).filter fun d => d.side = c).flatMap fun d => orderedLines d.orderedPkg mem := by
  rw [descriptorGroups, List.filter_map, List.flatMap_map]
  rfl

end Dispatches

end RidgeWalker.Burst
