import Iposix.Lib.Run
import Iposix.Proofs.DescriptorTable
import Iposix.Proofs.FileStore

/-!
# File calls down to the drive

The dispatcher uses the nodes through their virtual functions only. So if two
kinds of nodes answer alike, the answers of all calls of all processes are
alike. The nodes of a FAT filesystem on a partition of an ATA drive answer like
nodes over a store that is held in memory, and with that the whole way from a
descriptor to the sectors is a table of files: what a process reads is what was
written to that file last, by whomever.
-/

namespace Iposix.Fs.FileCalls

open Iposix.Lib

universe u v

variable {ω : Type u} {ω' : Type v} {methods : NodeMethods ω}
  {methods' : NodeMethods ω'} {R : ω → ω' → Prop}
  {Fits : Nat → Nat → Nat → Prop}

/-- Nodes over `ω` that answer like nodes over `ω'` to what fits: a node, an
offset and a length. -/
structure NodeMethods.Simulates (methods : NodeMethods ω)
    (methods' : NodeMethods ω') (R : ω → ω' → Prop)
    (Fits : Nat → Nat → Nat → Prop) : Prop where
  isTty : methods.isTty = methods'.isTty
  length : ∀ {w w'}, R w w' → methods.length w = methods'.length w'
  stat : ∀ {w w'}, R w w' → methods.stat w = methods'.stat w'
  read : ∀ {w w' node offset length} (buffer : Nat → UInt8), R w w' →
    Fits node offset length → ∃ u u' out,
      methods.read w node offset buffer length = some (u, out) ∧
      methods'.read w' node offset buffer length = some (u', out) ∧ R u u'
  write : ∀ {w w' node offset length} (buffer : Nat → UInt8), R w w' →
    Fits node offset length → ∃ u u',
      methods.write w node offset buffer length = some u ∧
      methods'.write w' node offset buffer length = some u' ∧ R u u'

namespace Kernel

/-- The kernel with other devices. -/
def inWorld (s : Kernel ω') (world : ω) : Kernel ω :=
  ⟨s.vfs, world, s.filehandles, s.next, s.holders, s.count⟩

/-- A call of a process that is there, and what it asks of a node fits. -/
def Allows (Fits : Nat → Nat → Nat → Prop) (s : Kernel ω) (call : Call) :
    Prop :=
  call.process < s.count ∧
    match call with
    | .readCall process fileDescriptor _ length
    | .writeCall process fileDescriptor _ length =>
        ∀ fd node, s.table process (u32 fileDescriptor) = some fd →
          (s.filehandles fd).node = some node →
          Fits node (u64 (s.filehandles fd).offset) length
    | _ => True

/-- The answers to the calls of a run, and the kernel afterwards. -/
def serve (methods : NodeMethods ω) :
    List Call → Kernel ω → Option (List Reply × Kernel ω)
  | [], s => some ([], s)
  | call :: calls, s => do
      let (r, s) ← s.step methods call
      let (rs, s) ← serve methods calls s
      some (r :: rs, s)

variable {s : Kernel ω'} {w : ω}

/-! ## One call -/

theorem readCall_simulates (h : methods.Simulates methods' R Fits)
    (hR : R w s.world) (process : Nat) (fileDescriptor : Int)
    (buffer : Nat → UInt8) (length : Nat)
    (hfits : ∀ fd node, s.table process (u32 fileDescriptor) = some fd →
      (s.filehandles fd).node = some node →
      Fits node (u64 (s.filehandles fd).offset) length) :
    ∃ r t u, s.readCall methods' process fileDescriptor buffer length =
        some (r, t) ∧
      (s.inWorld w).readCall methods process fileDescriptor buffer length =
        some (r, t.inWorld u) ∧ R u t.world := by
  simp only [readCall, inWorld]
  cases hfd : (s.holders process).getFilehandle (u32 fileDescriptor) with
  | none => exact ⟨_, s, w, rfl, rfl, hR⟩
  | some fd =>
      simp only [Filehandle.read]
      cases hnode : (s.filehandles fd).node with
      | none => exact ⟨_, _, w, rfl, rfl, hR⟩
      | some node =>
          obtain ⟨u, u', out, hread, hread', hu⟩ :=
            h.read buffer hR (hfits fd node hfd hnode)
          simp only [hread, hread', Option.bind_eq_bind, Option.bind_some]
          exact ⟨_, _, u, rfl, rfl, hu⟩

theorem writeCall_simulates (h : methods.Simulates methods' R Fits)
    (hR : R w s.world) (process : Nat) (fileDescriptor : Int)
    (buffer : Nat → UInt8) (length : Nat)
    (hfits : ∀ fd node, s.table process (u32 fileDescriptor) = some fd →
      (s.filehandles fd).node = some node →
      Fits node (u64 (s.filehandles fd).offset) length) :
    ∃ r t u, s.writeCall methods' process fileDescriptor buffer length =
        some (r, t) ∧
      (s.inWorld w).writeCall methods process fileDescriptor buffer length =
        some (r, t.inWorld u) ∧ R u t.world := by
  simp only [writeCall, inWorld]
  cases hfd : (s.holders process).getFilehandle (u32 fileDescriptor) with
  | none => exact ⟨_, s, w, rfl, rfl, hR⟩
  | some fd =>
      simp only [Filehandle.write]
      cases hnode : (s.filehandles fd).node with
      | none => exact ⟨_, _, w, rfl, rfl, hR⟩
      | some node =>
          obtain ⟨u, u', hwrite, hwrite', hu⟩ :=
            h.write buffer hR (hfits fd node hfd hnode)
          simp only [hwrite, hwrite', Option.bind_eq_bind, Option.bind_some]
          exact ⟨_, _, u, rfl, rfl, hu⟩

theorem step_simulates (h : methods.Simulates methods' R Fits)
    (hR : R w s.world) {call : Call} (hallows : s.Allows Fits call) :
    ∃ r t u, s.step methods' call = some (r, t) ∧
      (s.inWorld w).step methods call = some (r, t.inWorld u) ∧
      R u t.world := by
  obtain ⟨hprocess, hfits⟩ := hallows
  have hprocess' : call.process < (s.inWorld w).count := hprocess
  rw [step, step, if_pos hprocess, if_pos hprocess']
  cases call with
  | openCall process sub pathName flags createMode =>
      simp only [dispatchSyscall, openCall, inWorld]
      cases s.vfs.openNode sub pathName with
      | mk vfs file =>
          cases file with
          | none => exact ⟨_, _, w, rfl, rfl, hR⟩
          | some file => exact ⟨_, _, w, rfl, rfl, hR⟩
  | closeCall process fileDescriptor =>
      simp only [dispatchSyscall, closeCall, inWorld]
      cases ((s.holders process).removeFilehandle s.filehandles
          (u32 fileDescriptor)).2 with
      | none => exact ⟨_, _, w, rfl, rfl, hR⟩
      | some file => exact ⟨_, _, w, rfl, rfl, hR⟩
  | readCall process fileDescriptor buffer length =>
      exact readCall_simulates h hR process fileDescriptor buffer length hfits
  | writeCall process fileDescriptor buffer length =>
      exact writeCall_simulates h hR process fileDescriptor buffer length hfits
  | lseekCall process fileDescriptor offset number =>
      simp only [dispatchSyscall, lseekCall, inWorld]
      cases (s.holders process).getFilehandle (u32 fileDescriptor) with
      | none => exact ⟨_, s, w, rfl, rfl, hR⟩
      | some fd =>
          have hseek : (s.filehandles fd).seek methods w offset number =
              (s.filehandles fd).seek methods' s.world offset number := by
            simp only [Filehandle.seek, h.isTty, h.length hR]
          simp only [hseek]
          exact ⟨_, _, w, rfl, rfl, hR⟩
  | fstatCall process fileDescriptor st =>
      simp only [dispatchSyscall, fstatCall, inWorld]
      cases (s.holders process).getFilehandle (u32 fileDescriptor) with
      | none => exact ⟨_, s, w, rfl, rfl, hR⟩
      | some fd =>
          have hstat : (s.filehandles fd).stat methods w st =
              (s.filehandles fd).stat methods' s.world st := by
            simp only [Filehandle.stat, h.stat hR]
          simp only [hstat]
          exact ⟨_, s, w, rfl, rfl, hR⟩
  | forkCall process copied =>
      simp only [dispatchSyscall, forkCall, inWorld]
      cases copied with
      | false => exact ⟨_, s, w, rfl, rfl, hR⟩
      | true => exact ⟨_, _, w, rfl, rfl, hR⟩

/-! ## Runs -/

/-- The step without the answer. -/
def advance (methods : NodeMethods ω) (s : Kernel ω) (call : Call) :
    Option (Kernel ω) := (s.step methods call).map Prod.snd

theorem serve_simulates (h : methods.Simulates methods' R Fits) :
    ∀ {calls : List Call} {s : Kernel ω'} {w : ω}, R w s.world →
      Meets (advance methods') (Allows Fits) s calls →
      ∃ rs t u, s.serve methods' calls = some (rs, t) ∧
        (s.inWorld w).serve methods calls = some (rs, t.inWorld u) ∧
        R u t.world := by
  intro calls
  induction calls with
  | nil => intro s w hR _; exact ⟨[], s, w, rfl, rfl, hR⟩
  | cons call calls ih =>
      intro s w hR ⟨hallows, hrest⟩
      obtain ⟨r, t, u, hstep, hstep', hu⟩ := step_simulates h hR hallows
      obtain ⟨rs, t', u', hserve, hserve', hu'⟩ :=
        ih hu (hrest t (by rw [advance, hstep]; rfl))
      refine ⟨r :: rs, t', u', ?_, ?_, hu'⟩
      · simp only [serve, hstep, hserve, Option.bind_eq_bind, Option.bind_some]
      · simp only [serve, hstep', hserve', Option.bind_eq_bind,
          Option.bind_some]

end Kernel

/-! ## Files of a volume -/

open Iposix.Devices (Bytes)

variable {ι : Type u} {σ : Type v} {space : Nat}

/-- The virtual functions of `fat_fs_node`. What `stat` answers depends on the
directory entry of the node only. -/
def fatMethods (container : Container σ) (nodes : Nat → FatFsNode)
    (stat : Nat → Nat → UInt8) : NodeMethods σ where
  isTty := fun _ => false
  length := fun _ node => (nodes node).size
  read := fun dev node offset buffer length =>
    ((nodes node).readOn container dev offset buffer length).map Prod.swap
  write := fun dev node offset buffer length =>
    (nodes node).writeOn container dev offset buffer length
  stat := fun _ => stat

/-- Nodes over a store in memory. Some nodes are no files; they are neither read
nor written. -/
def storeMethods [DecidableEq ι] (file : Nat → Option ι) (size : ι → Nat)
    (nodes : Nat → FatFsNode) (stat : Nat → Nat → UInt8) :
    NodeMethods (Store ι) where
  isTty := fun _ => false
  length := fun _ node => (nodes node).size
  read := fun s node offset buffer length =>
    match file node with
    | none => some (s, buffer)
    | some i =>
        let (buffer, s) := s.step size ⟨false, i, offset, length, buffer⟩
        some (s, buffer)
  write := fun s node offset buffer length =>
    match file node with
    | none => some s
    | some i => some (s.step size ⟨true, i, offset, length, buffer⟩).2
  stat := fun _ => stat

/-- Every node is that of a file of the volume, or of a directory. -/
def NodesOf (files : Files ι space) (file : Nat → Option ι)
    (nodes : Nat → FatFsNode) : Prop :=
  ∀ node, match file node with
    | none => (nodes node).isDirectory = true
    | some i => nodes node = files.node i

/-- What is asked of a file begins in it or at its end. -/
def FitsFile (files : Files ι space) (file : Nat → Option ι)
    (node offset length : Nat) : Prop :=
  ∀ i, file node = some i → offset ≤ files.size i ∧ length < 4294967296

/-- The disk holds the store, and is elsewhere what it was. -/
structure Carries (files : Files ι space) (disk : σ → Bytes) (first : Nat)
    (before : Bytes) (dev : σ) (s : Store ι) : Prop where
  holds : files.Holds (window (disk dev) first) s
  elsewhere : ∀ b, (∀ a, first + a = b → files.Elsewhere a) →
    disk dev b = before b

theorem fatMethods_simulates [DecidableEq ι] {files : Files ι space}
    {container : Container σ} {disk : σ → Bytes} {first most : Nat}
    {file : Nat → Option ι} {nodes : Nat → FatFsNode}
    (h : container.Serves disk first space most)
    (hmost : files.fs.clusterSize ≤ most) (hnodes : NodesOf files file nodes)
    (stat : Nat → Nat → UInt8) (before : Bytes) :
    (fatMethods container nodes stat).Simulates
      (storeMethods file files.size nodes stat)
      (Carries files disk first before) (FitsFile files file) where
  isTty := rfl
  length := fun _ => rfl
  stat := fun _ => rfl
  read {dev s node offset length} buffer hR hfits := by
    have hnode := hnodes node
    simp only [fatMethods, storeMethods]
    cases hfile : file node with
    | none =>
        rw [hfile] at hnode
        refine ⟨dev, s, buffer, ?_, rfl, hR⟩
        rw [FatFsNode.readOn, if_pos hnode]
        rfl
    | some i =>
        rw [hfile] at hnode
        dsimp only at hnode
        obtain ⟨dev', hserve, hdisk⟩ := Files.serve_read h hmost
          (hfits i hfile) hR.holds (r := ⟨false, i, offset, length, buffer⟩) rfl
        rw [Files.serve, if_neg Bool.false_ne_true] at hserve
        refine ⟨dev', s, _, ?_, rfl, ?_⟩
        · rw [hnode, hserve]
          rfl
        · refine ⟨?_, fun b hb => ?_⟩
          · rw [hdisk]
            exact hR.holds
          · rw [hdisk]
            exact hR.elsewhere b hb
  write {dev s node offset length} buffer hR hfits := by
    have hnode := hnodes node
    simp only [fatMethods, storeMethods]
    cases hfile : file node with
    | none =>
        rw [hfile] at hnode
        refine ⟨dev, s, ?_, rfl, hR⟩
        rw [FatFsNode.writeOn, if_pos hnode]
    | some i =>
        rw [hfile] at hnode
        dsimp only at hnode
        obtain ⟨dev', hserve, hholds, helse⟩ := Files.serve_write h
          hmost (hfits i hfile) hR.holds
          (r := ⟨true, i, offset, length, buffer⟩) rfl
        rw [Files.serve, if_pos rfl] at hserve
        obtain ⟨dev'', hwrite, heq⟩ := Option.map_eq_some_iff.1 hserve
        obtain rfl : dev'' = dev' := congrArg Prod.snd heq
        refine ⟨dev'', _, ?_, rfl, hholds, fun b hb => ?_⟩
        · rw [hnode]
          exact hwrite
        · rw [helse b hb]
          exact hR.elsewhere b hb

/-- A process that has the file of two bytes open. -/
def holdsFile (disk : Bytes) : Kernel (Store Bool) where
  vfs := Vfs.init
  world := Files.twoFiles.contents (window disk 512)
  filehandles := fun _ => ⟨some 0, 0, 0, 0, 0⟩
  next := 1
  holders := fun _ => ⟨AList.singleton 0 0, 1⟩
  count := 1

/-- The parent writes one byte, the child reads the next. -/
def writeForkRead : List Call :=
  [.writeCall 0 0 (fun _ => 9) 1, .forkCall 0 true,
    .readCall 1 0 (fun _ => 0) 1]

end Iposix.Fs.FileCalls
