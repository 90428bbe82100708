import Iposix.Fs.FileCalls
import Iposix.Proofs.OpenBalance

/-!
# The table of descriptors

Descriptors come from a counter, and a close leaves the counter alone, so all
descriptors of a process are below the number of opens that went into its
counter. A fork copies the counter with the table: the opens of the parent count
for the child too. As long as there are fewer than `2^32` of them the counter is
that number and the next descriptor is not in use.

The table of a process is its own. Parent and child share handles, each of them
stored under the number the handle has, but what one of them does to its table
the other does not see.
-/

namespace Iposix.Fs.FileCalls

open Iposix.Lib

universe u

variable {ω : Type u} {methods : NodeMethods ω}

/-- The handle a process has under a descriptor. -/
def Kernel.table (s : Kernel ω) (process fd : Nat) : Option Nat :=
  (s.holders process).getFilehandle fd

/-- What a call does to the table of its process and answers about it. -/
def Own (s : Kernel ω) (r : Reply) (t : Kernel ω) : Call → Prop
  | .openCall process .. =>
      (∀ fd, r.fileDescriptor = some fd →
        s.table process fd = none ∧ t.table process fd ≠ none ∧
          ∀ fd', fd' ≠ fd → t.table process fd' = s.table process fd') ∧
      (r.fileDescriptor = none → t.table process = s.table process)
  | .closeCall process fileDescriptor =>
      (r.error = .eBadFiledescriptor ↔
        s.table process (u32 fileDescriptor) = none) ∧
      t.table process =
        Function.update (s.table process) (u32 fileDescriptor) none
  | .readCall process fileDescriptor .. | .writeCall process fileDescriptor ..
  | .lseekCall process fileDescriptor .. | .fstatCall process fileDescriptor .. =>
      (r.error = .eBadFiledescriptor ↔
        s.table process (u32 fileDescriptor) = none) ∧
      t.table process = s.table process
  | .forkCall process _ =>
      (r.error = .none →
        t.count = s.count + 1 ∧ t.table s.count = s.table process) ∧
      t.table process = s.table process

/-- The law of one call. -/
structure Law (s : Kernel ω) (call : Call) (r : Reply) (t : Kernel ω) :
    Prop where
  own : Own s r t call
  others : ∀ process, process < s.count → process ≠ call.process →
    t.table process = s.table process

/-! ## Runs -/

/-- The kernel, with the number of opens each process has made. -/
structure Counted (ω : Type u) where
  kernel : Kernel ω
  opens : Nat → Nat

namespace Counted

/-- Processes without open files. -/
def boot (vfs : Vfs) (world : ω) (filehandles : Nat → Filehandle)
    (count : Nat) : Counted ω where
  kernel := ⟨vfs, world, filehandles, 0, fun _ => .empty, count⟩
  opens := fun _ => 0

/-- The opens after a call: `inherited` says whether those of the parent count
for the child of a fork. -/
def tally (inherited : Bool) (s : Counted ω) (r : Reply) : Call → Nat → Nat
  | .openCall process .. =>
      if r.fileDescriptor.isSome then
        Function.update s.opens process (s.opens process + 1)
      else s.opens
  | .forkCall process _ =>
      if r.error = .none then
        Function.update s.opens s.kernel.count
          (if inherited then s.opens process else 0)
      else s.opens
  | _ => s.opens

def step (inherited : Bool) (methods : NodeMethods ω) (s : Counted ω)
    (call : Call) : Option (Counted ω) :=
  match s.kernel.step methods call with
  | none => none
  | some (r, t) => some ⟨t, s.tally inherited r call⟩

end Counted

/-! ## What the tables hold -/

namespace FilehandleHolder

variable {h : FilehandleHolder} {fhs : Nat → Filehandle}

theorem getFilehandle_pushHandle (fh fd : Nat) :
    (h.pushHandle fhs fh).getFilehandle fd =
      Function.update h.getFilehandle (fhs fh).fd (some fh) fd := by
  rw [getFilehandle, pushHandle]
  by_cases hfd : fd = (fhs fh).fd
  · rw [hfd, Function.update_self]
    exact AList.lookup_insert _
  · rw [Function.update_of_ne hfd]
    exact AList.lookup_insert_ne hfd

theorem foldl_getFilehandle (l : List (Sigma fun _ : Nat => Nat))
    (hl : l.NodupKeys) (hfd : ∀ e, e ∈ l → (fhs e.2).fd = e.1) (fd : Nat) :
    (l.foldl (fun h e => h.pushHandle fhs e.2) h).getFilehandle fd =
      (l.dlookup fd).or (h.getFilehandle fd) := by
  induction l generalizing h with
  | nil => rfl
  | cons e l ih =>
      have hne := List.nodupKeys_cons.1 hl
      rw [List.foldl_cons, ih hne.2 fun e' he' => hfd e' (.tail _ he'),
        getFilehandle_pushHandle, hfd e (.head _)]
      obtain ⟨k, v⟩ := e
      by_cases hk : fd = k
      · subst hk
        have hnone : l.dlookup fd = none := List.dlookup_eq_none.2 hne.1
        rw [hnone, Function.update_self, List.dlookup_cons_eq]
        rfl
      · have hcons : List.dlookup fd (⟨k, v⟩ :: l) = List.dlookup fd l :=
          List.dlookup_cons_ne l ⟨k, v⟩ hk
        rw [Function.update_of_ne hk, hcons]

/-- The copy has the handles of the original. -/
theorem getFilehandle_copyFilehandles {holder : FilehandleHolder}
    (hfd : ∀ fd fh, holder.getFilehandle fd = some fh → (fhs fh).fd = fd)
    (fd : Nat) :
    (empty.copyFilehandles fhs holder).getFilehandle fd =
      holder.getFilehandle fd := by
  have hentry : ∀ e, e ∈ holder.filehandles.entries → (fhs e.2).fd = e.1 :=
    fun e he => hfd e.1 e.2
      (List.mem_dlookup_iff holder.filehandles.nodupKeys |>.2 he)
  refine (foldl_getFilehandle _ holder.filehandles.nodupKeys hentry fd).trans ?_
  exact Option.or_none

theorem getFilehandle_removeFilehandle (fd : Nat) :
    (h.removeFilehandle fhs fd).1.getFilehandle =
      Function.update h.getFilehandle fd none := by
  funext fd'
  rw [removeFilehandle]
  by_cases hfd : fd' = fd
  · rw [hfd, Function.update_self]
    split
    next hnone => exact hnone
    next => exact AList.lookup_erase _ _
  · rw [Function.update_of_ne hfd]
    split
    next => rfl
    next => exact AList.lookup_erase_ne hfd

theorem fdCounter_removeFilehandle (fd : Nat) :
    (h.removeFilehandle fhs fd).1.fdCounter = h.fdCounter := by
  rw [removeFilehandle]
  split <;> rfl

end FilehandleHolder

/-- A handle keeps its number and its node. -/
def Same (fh fh' : Filehandle) : Prop := fh'.fd = fh.fd ∧ fh'.node = fh.node

namespace Filehandle

variable {fh fh' : Filehandle} {world world' : ω} {buffer buffer' : Nat → UInt8}
  {length result : Nat}

theorem read_same
    (h : fh.read methods world buffer length =
      some (result, fh', world', buffer')) : Same fh fh' := by
  rw [read] at h
  split at h
  next =>
    cases h
    exact ⟨rfl, rfl⟩
  next node hnode =>
    cases hread : methods.read world node (u64 fh.offset) buffer length with
    | none =>
        rw [hread] at h
        cases h
    | some out =>
        rw [hread] at h
        cases h
        exact ⟨rfl, rfl⟩

theorem write_same
    (h : fh.write methods world buffer length = some (result, fh', world')) :
    Same fh fh' := by
  rw [write] at h
  split at h
  next =>
    cases h
    exact ⟨rfl, rfl⟩
  next node hnode =>
    cases hwrite : methods.write world node (u64 fh.offset) buffer length with
    | none =>
        rw [hwrite] at h
        cases h
    | some out =>
        rw [hwrite] at h
        cases h
        exact ⟨rfl, rfl⟩

theorem seekTo_same (fh : Filehandle) (position length : Int) :
    Same fh (fh.seekTo position length).2 := by
  rw [seekTo]
  split <;> exact ⟨rfl, rfl⟩

theorem seek_same (fh : Filehandle) (world : ω) (offset direction : Int) :
    Same fh (fh.seek methods world offset direction).2 := by
  rw [seek]
  split
  next => exact ⟨rfl, rfl⟩
  next =>
    dsimp only
    repeat' split
    all_goals first
      | exact seekTo_same ..
      | exact ⟨rfl, rfl⟩

end Filehandle

/-- Every descriptor is below the opens counted, and its handle carries its
number and a node. -/
structure Held (s : Counted ω) : Prop where
  counter : ∀ process,
    (s.kernel.holders process).fdCounter = u32 (s.opens process)
  fd : ∀ process fd fh, s.kernel.table process fd = some fh →
    (s.kernel.filehandles fh).fd = fd
  node : ∀ process fd fh, s.kernel.table process fd = some fh →
    (s.kernel.filehandles fh).node ≠ none
  lt : ∀ process fd fh, s.kernel.table process fd = some fh → fh < s.kernel.next
  below : ∀ process fd fh, s.kernel.table process fd = some fh →
    fd < s.opens process

namespace Held

variable {s : Counted ω}

theorem boot (vfs : Vfs) (world : ω) (filehandles : Nat → Filehandle)
    (count : Nat) : Held (Counted.boot vfs world filehandles count) := by
  have hempty (process fd fh : Nat) :
      (Counted.boot vfs world filehandles count).kernel.table process fd ≠
        some fh := nofun
  have hzero : 0 = u32 ((0 : Nat) : Int) := (u32_of_lt (by decide)).symm
  exact ⟨fun _ => hzero,
    fun _ _ _ h => absurd h (hempty _ _ _), fun _ _ _ h => absurd h (hempty _ _ _),
    fun _ _ _ h => absurd h (hempty _ _ _), fun _ _ _ h => absurd h (hempty _ _ _)⟩

/-- What the filesystem and the devices hold does not matter. -/
theorem setFilehandle (h : Held s) (vfs : Vfs) (world : ω) {i : Nat}
    {fh : Filehandle} (hsame : Same (s.kernel.filehandles i) fh) :
    Held ⟨{ s.kernel with vfs := vfs, world := world }.setFilehandle i fh,
      s.opens⟩ := by
  have hset (j : Nat) : Same (s.kernel.filehandles j)
      (Function.update s.kernel.filehandles i fh j) := by
    by_cases hj : j = i
    · rw [hj, Function.update_self]
      exact hsame
    · rw [Function.update_of_ne hj]
      exact ⟨rfl, rfl⟩
  refine ⟨h.counter, fun p fd j hj => ?_, fun p fd j hj => ?_, h.lt, h.below⟩
  · exact (hset j).1.trans (h.fd p fd j hj)
  · exact (hset j).2.trans_ne (h.node p fd j hj)

end Held

/-! ## The calls -/

namespace Kernel

variable {s : Kernel ω} {process other file : Nat} {flags mode : UInt8}

theorem table_setHolder_self (holder : FilehandleHolder) :
    (s.setHolder process holder).table process = holder.getFilehandle := by
  funext fd
  simp only [table, setHolder, Function.update_self]

theorem table_setHolder_of_ne {holder : FilehandleHolder}
    (hother : other ≠ process) :
    (s.setHolder process holder).table other = s.table other := by
  funext fd
  simp only [table, setHolder, Function.update_of_ne hother]

theorem table_pushFilehandle_self (s : Kernel ω) (process file : Nat)
    (flags mode : UInt8) :
    (s.pushFilehandle process file flags mode).1.table process =
      Function.update (s.table process) (s.holders process).fdCounter
        (some s.next) := by
  funext fd
  rw [pushFilehandle, table_setHolder_self,
    FilehandleHolder.getFilehandle_pushHandle]
  show Function.update _ (Function.update s.filehandles s.next _ s.next).fd _ fd = _
  rw [Function.update_self]
  rfl

theorem table_pushFilehandle_of_ne (hother : other ≠ process) :
    (s.pushFilehandle process file flags mode).1.table other =
      s.table other :=
  table_setHolder_of_ne hother

end Kernel

namespace Held

variable {s : Counted ω} {process : Nat}

theorem counter_lt (h : Held s) (hfew : s.opens process < 4294967296) :
    (s.kernel.holders process).fdCounter = s.opens process := by
  rw [h.counter]
  exact u32_of_lt hfew

theorem fresh (h : Held s) (hfew : s.opens process < 4294967296) :
    s.kernel.table process (s.kernel.holders process).fdCounter = none := by
  rw [h.counter_lt hfew]
  refine Option.eq_none_iff_forall_ne_some.2 fun fh hfh => ?_
  exact Nat.lt_irrefl _ (h.below process _ fh hfh)

theorem u32_succ (n : Nat) : u32 (u32 n + 1) = u32 (n + 1 : Nat) := by
  simp only [u32]
  omega

theorem pushFilehandle (h : Held s) (vfs : Vfs) (process file : Nat)
    (flags mode : UInt8) :
    Held ⟨({ s.kernel with vfs := vfs }.pushFilehandle process file flags mode).1,
      Function.update s.opens process (s.opens process + 1)⟩ := by
  have hentry : ∀ p fd fh,
      ({ s.kernel with vfs := vfs }.pushFilehandle process file flags
        mode).1.table p fd = some fh →
      (p = process ∧ fd = (s.kernel.holders process).fdCounter ∧
        fh = s.kernel.next) ∨ s.kernel.table p fd = some fh := by
    intro p fd fh hfh
    by_cases hp : p = process
    · subst hp
      rw [Kernel.table_pushFilehandle_self] at hfh
      change Function.update (s.kernel.table p) (s.kernel.holders p).fdCounter
        (some s.kernel.next) fd = some fh at hfh
      by_cases hfd : fd = (s.kernel.holders p).fdCounter
      · rw [hfd, Function.update_self] at hfh
        exact .inl ⟨rfl, hfd, (Option.some.inj hfh).symm⟩
      · rw [Function.update_of_ne hfd] at hfh
        exact .inr hfh
    · rw [Kernel.table_pushFilehandle_of_ne hp] at hfh
      exact .inr hfh
  have hold : ∀ p fd fh, s.kernel.table p fd = some fh →
      Function.update s.kernel.filehandles s.kernel.next
        ⟨some file, flags, mode, (s.kernel.holders process).fdCounter, 0⟩ fh =
        s.kernel.filehandles fh := fun p fd fh hfh =>
    Function.update_of_ne (Nat.ne_of_lt (h.lt p fd fh hfh)) ..
  refine ⟨fun p => ?_, fun p fd fh hfh => ?_, fun p fd fh hfh => ?_,
    fun p fd fh hfh => ?_, fun p fd fh hfh => ?_⟩
  · show (Function.update s.kernel.holders process _ p).fdCounter =
      u32 (Function.update s.opens process _ p : Nat)
    by_cases hp : p = process
    · subst hp
      rw [Function.update_self, Function.update_self]
      show u32 ((s.kernel.holders p).fdCounter + 1) = _
      rw [h.counter, u32_succ]
    · rw [Function.update_of_ne hp, Function.update_of_ne hp]
      exact h.counter p
  · show (Function.update s.kernel.filehandles s.kernel.next _ fh).fd = fd
    rcases hentry p fd fh hfh with ⟨rfl, rfl, rfl⟩ | hfh
    · rw [Function.update_self]
    · rw [hold p fd fh hfh]
      exact h.fd p fd fh hfh
  · show (Function.update s.kernel.filehandles s.kernel.next _ fh).node ≠ none
    rcases hentry p fd fh hfh with ⟨rfl, rfl, rfl⟩ | hfh
    · rw [Function.update_self]
      nofun
    · rw [hold p fd fh hfh]
      exact h.node p fd fh hfh
  · show fh < s.kernel.next + 1
    rcases hentry p fd fh hfh with ⟨-, -, rfl⟩ | hfh
    · exact Nat.lt_succ_self _
    · exact Nat.lt_succ_of_lt (h.lt p fd fh hfh)
  · show fd < Function.update s.opens process _ p
    rcases hentry p fd fh hfh with ⟨rfl, rfl, -⟩ | hfh
    · rw [Function.update_self, h.counter]
      have : u32 (s.opens p : Int) ≤ s.opens p := by
        simp only [u32]
        omega
      omega
    · have hlt := h.below p fd fh hfh
      by_cases hp : p = process
      · subst hp
        rw [Function.update_self]
        omega
      · rwa [Function.update_of_ne hp]

/-- Every process has part of what a process had, and its count of opens. -/
theorem of_part (h : Held s) {t : Kernel ω} {opens : Nat → Nat}
    (hfilehandles : t.filehandles = s.kernel.filehandles)
    (hnext : t.next = s.kernel.next)
    (hpart : ∀ p, ∃ q,
      (t.holders p).fdCounter = (s.kernel.holders q).fdCounter ∧
      opens p = s.opens q ∧
      ∀ fd fh, t.table p fd = some fh → s.kernel.table q fd = some fh) :
    Held ⟨t, opens⟩ := by
  refine ⟨fun p => ?_, fun p fd fh hfh => ?_, fun p fd fh hfh => ?_,
    fun p fd fh hfh => ?_, fun p fd fh hfh => ?_⟩
  all_goals obtain ⟨q, hcounter, hopens, htable⟩ := hpart p
  · show (t.holders p).fdCounter = u32 (opens p)
    rw [hcounter, hopens]
    exact h.counter q
  · show (t.filehandles fh).fd = fd
    rw [hfilehandles]
    exact h.fd q fd fh (htable fd fh hfh)
  · show (t.filehandles fh).node ≠ none
    rw [hfilehandles]
    exact h.node q fd fh (htable fd fh hfh)
  · show fh < t.next
    rw [hnext]
    exact h.lt q fd fh (htable fd fh hfh)
  · show fd < opens p
    rw [hopens]
    exact h.below q fd fh (htable fd fh hfh)

theorem removeFilehandle (h : Held s) (vfs : Vfs) (process fd : Nat) :
    Held ⟨{ s.kernel.setHolder process
      ((s.kernel.holders process).removeFilehandle s.kernel.filehandles fd).1
        with vfs := vfs }, s.opens⟩ := by
  refine h.of_part rfl rfl fun p => ⟨p, ?_, rfl, fun fd' fh hfh => ?_⟩
  · show (Function.update s.kernel.holders process _ p).fdCounter = _
    by_cases hp : p = process
    · rw [hp, Function.update_self]
      exact FilehandleHolder.fdCounter_removeFilehandle _
    · rw [Function.update_of_ne hp]
  · change (s.kernel.setHolder process _).table p fd' = some fh at hfh
    by_cases hp : p = process
    · rw [hp, Kernel.table_setHolder_self,
        FilehandleHolder.getFilehandle_removeFilehandle] at hfh
      by_cases hfd : fd' = fd
      · rw [hfd, Function.update_self] at hfh
        cases hfh
      · rw [Function.update_of_ne hfd] at hfh
        rw [hp]
        exact hfh
    · rwa [Kernel.table_setHolder_of_ne hp] at hfh

/-- The child of a fork has its parent's table. -/
theorem copied (h : Held s) (process : Nat) :
    (FilehandleHolder.empty.copyFilehandles s.kernel.filehandles
      (s.kernel.holders process)).getFilehandle = s.kernel.table process :=
  funext (FilehandleHolder.getFilehandle_copyFilehandles (h.fd process))

theorem copyFilehandles (h : Held s) (process : Nat) :
    Held ⟨{ s.kernel.setHolder s.kernel.count
      (FilehandleHolder.empty.copyFilehandles s.kernel.filehandles
        (s.kernel.holders process)) with count := s.kernel.count + 1 },
      Function.update s.opens s.kernel.count (s.opens process)⟩ := by
  refine h.of_part rfl rfl fun p => ?_
  by_cases hp : p = s.kernel.count
  · refine ⟨process, ?_, ?_, fun fd fh hfh => ?_⟩
    · show (Function.update s.kernel.holders s.kernel.count _ p).fdCounter = _
      rw [hp, Function.update_self]
      rfl
    · rw [hp, Function.update_self]
    · change (s.kernel.setHolder s.kernel.count _).table p fd = some fh at hfh
      rwa [hp, Kernel.table_setHolder_self, h.copied] at hfh
  · refine ⟨p, ?_, Function.update_of_ne hp .., fun fd fh hfh => ?_⟩
    · show (Function.update s.kernel.holders s.kernel.count _ p).fdCounter = _
      rw [Function.update_of_ne hp]
    · change (s.kernel.setHolder s.kernel.count _).table p fd = some fh at hfh
      rwa [Kernel.table_setHolder_of_ne hp] at hfh

/-! ## One call -/

variable {call : Call} {r : Reply} {t : Kernel ω}

theorem openCall (h : Held s) {sub : Subnodes} {pathName : Path}
    {flags createMode : UInt8}
    (hcall : s.kernel.openCall process sub pathName flags createMode = (r, t)) :
    Held ⟨t, s.tally true r (.openCall process sub pathName flags createMode)⟩ ∧
      (s.opens process < 4294967296 →
        Law s.kernel (.openCall process sub pathName flags createMode) r t) := by
  rw [Kernel.openCall] at hcall
  split at hcall
  next vfs file hopen =>
    cases hcall
    refine ⟨h.pushFilehandle vfs process file flags createMode,
      fun hfew => ⟨⟨?_, nofun⟩, fun p _ hp => ?_⟩⟩
    · have hself := Kernel.table_pushFilehandle_self
        { s.kernel with vfs := vfs } process file flags createMode
      rintro _ ⟨⟩
      refine ⟨h.fresh hfew, fun hnone => ?_, fun fd' hfd' => ?_⟩
      · have hnew := (congrFun hself _).symm.trans hnone
        exact absurd ((Function.update_self ..).symm.trans hnew) nofun
      · exact (congrFun hself fd').trans (Function.update_of_ne hfd' ..)
    · exact Kernel.table_pushFilehandle_of_ne hp
  next vfs hopen =>
    cases hcall
    exact ⟨h.of_part rfl rfl fun p => ⟨p, rfl, rfl, fun _ _ hfh => hfh⟩,
      fun _ => ⟨⟨nofun, fun _ => rfl⟩, fun _ _ _ => rfl⟩⟩

theorem closeCall (h : Held s) {fileDescriptor : Int}
    (hcall : s.kernel.closeCall process fileDescriptor = (r, t)) :
    Held ⟨t, s.tally true r (.closeCall process fileDescriptor)⟩ ∧
      Law s.kernel (.closeCall process fileDescriptor) r t := by
  have hnode : ((s.kernel.holders process).removeFilehandle
      s.kernel.filehandles (u32 fileDescriptor)).2 = none ↔
        s.kernel.table process (u32 fileDescriptor) = none := by
    rw [FilehandleHolder.removeFilehandle]
    split
    next hnone => exact ⟨fun _ => hnone, fun _ => rfl⟩
    next fh hfh =>
      refine ⟨fun hn => absurd hn (h.node process _ fh hfh), fun hn => ?_⟩
      exact absurd (hfh.symm.trans hn) nofun
  have hlaw (vfs : Vfs) (r : Reply) (hr : r.error = .eBadFiledescriptor ↔
      s.kernel.table process (u32 fileDescriptor) = none) :
      Law s.kernel (.closeCall process fileDescriptor) r
        { s.kernel.setHolder process
          ((s.kernel.holders process).removeFilehandle s.kernel.filehandles
            (u32 fileDescriptor)).1 with vfs := vfs } := by
    refine ⟨⟨hr, ?_⟩, fun p _ hp => Kernel.table_setHolder_of_ne hp⟩
    exact (Kernel.table_setHolder_self _).trans
      (FilehandleHolder.getFilehandle_removeFilehandle _)
  rw [Kernel.closeCall] at hcall
  dsimp only at hcall
  split at hcall
  next file hfile =>
    cases hcall
    refine ⟨h.removeFilehandle _ process _, hlaw _ _ ⟨nofun, fun hn => ?_⟩⟩
    rw [← hnode, hfile] at hn
    cases hn
  next hfile =>
    cases hcall
    exact ⟨h.removeFilehandle s.kernel.vfs process _,
      hlaw s.kernel.vfs _ ⟨fun _ => hnode.1 hfile, fun _ => rfl⟩⟩

/-- The calls that only use a handle: the answer is about the descriptor, and
no table changes. -/
theorem law_of_same {fileDescriptor : Int}
    (hown : Own s.kernel r t call ↔
      (r.error = .eBadFiledescriptor ↔
        s.kernel.table process (u32 fileDescriptor) = none) ∧
      t.table process = s.kernel.table process)
    (herror : r.error = .eBadFiledescriptor ↔
      s.kernel.table process (u32 fileDescriptor) = none)
    (htable : t.table = s.kernel.table) : Law s.kernel call r t :=
  ⟨hown.2 ⟨herror, congrFun htable _⟩, fun p _ _ => congrFun htable p⟩

theorem law_of_present {fileDescriptor : Int} {fd : Nat}
    (hown : Own s.kernel r t call ↔
      (r.error = .eBadFiledescriptor ↔
        s.kernel.table process (u32 fileDescriptor) = none) ∧
      t.table process = s.kernel.table process)
    (hfd : s.kernel.table process (u32 fileDescriptor) = some fd)
    (herror : r.error ≠ .eBadFiledescriptor)
    (htable : t.table = s.kernel.table) : Law s.kernel call r t := by
  refine law_of_same hown (iff_of_false herror ?_) htable
  rw [hfd]
  exact Option.some_ne_none fd

theorem law_of_absent {fileDescriptor : Int}
    (hown : Own s.kernel r s.kernel call ↔
      (r.error = .eBadFiledescriptor ↔
        s.kernel.table process (u32 fileDescriptor) = none) ∧
      s.kernel.table process = s.kernel.table process)
    (hfd : s.kernel.table process (u32 fileDescriptor) = none)
    (herror : r.error = .eBadFiledescriptor) : Law s.kernel call r s.kernel :=
  law_of_same hown (iff_of_true herror hfd) rfl

theorem dispatchSyscall (h : Held s) (hprocess : call.process < s.kernel.count)
    (hstep : s.kernel.dispatchSyscall methods call = some (r, t)) :
    Held ⟨t, s.tally true r call⟩ ∧
      (s.opens call.process < 4294967296 → Law s.kernel call r t) := by
  cases call with
  | openCall process sub pathName flags createMode =>
      exact h.openCall (Option.some.inj hstep)
  | closeCall process fileDescriptor =>
      obtain ⟨hheld, hlaw⟩ := h.closeCall (Option.some.inj hstep)
      exact ⟨hheld, fun _ => hlaw⟩
  | readCall process fileDescriptor buffer length =>
      simp only [Kernel.dispatchSyscall, Kernel.readCall] at hstep
      split at hstep
      next fd hfd =>
        cases hread : (s.kernel.filehandles fd).read methods s.kernel.world
            buffer length with
        | none =>
            rw [hread] at hstep
            cases hstep
        | some out =>
            rw [hread] at hstep
            cases hstep
            exact ⟨h.setFilehandle _ _ (Filehandle.read_same hread),
              fun _ => law_of_present .rfl hfd nofun rfl⟩
      next hfd =>
        cases hstep
        exact ⟨h, fun _ => law_of_absent .rfl hfd rfl⟩
  | writeCall process fileDescriptor buffer length =>
      simp only [Kernel.dispatchSyscall, Kernel.writeCall] at hstep
      split at hstep
      next fd hfd =>
        cases hwrite : (s.kernel.filehandles fd).write methods s.kernel.world
            buffer length with
        | none =>
            rw [hwrite] at hstep
            cases hstep
        | some out =>
            rw [hwrite] at hstep
            cases hstep
            exact ⟨h.setFilehandle _ _ (Filehandle.write_same hwrite),
              fun _ => law_of_present .rfl hfd nofun rfl⟩
      next hfd =>
        cases hstep
        exact ⟨h, fun _ => law_of_absent .rfl hfd rfl⟩
  | lseekCall process fileDescriptor offset number =>
      simp only [Kernel.dispatchSyscall, Kernel.lseekCall] at hstep
      split at hstep
      next fd hfd =>
        cases hstep
        refine ⟨h.setFilehandle s.kernel.vfs s.kernel.world
          (Filehandle.seek_same ..),
          fun _ => law_of_present .rfl hfd (fun herror => ?_) rfl⟩
        dsimp only at herror
        split at herror <;> cases herror
      next hfd =>
        cases hstep
        exact ⟨h, fun _ => law_of_absent .rfl hfd rfl⟩
  | fstatCall process fileDescriptor st =>
      simp only [Kernel.dispatchSyscall, Kernel.fstatCall] at hstep
      split at hstep
      next fd hfd =>
        cases hstep
        refine ⟨h, fun _ => law_of_present .rfl hfd (fun herror => ?_) rfl⟩
        dsimp only at herror
        split at herror <;> cases herror
      next hfd =>
        cases hstep
        exact ⟨h, fun _ => law_of_absent .rfl hfd rfl⟩
  | forkCall process copied =>
      simp only [Kernel.dispatchSyscall, Kernel.forkCall] at hstep
      split at hstep
      next =>
        cases hstep
        refine ⟨h.copyFilehandles process, fun _ => ⟨⟨fun _ => ⟨rfl, ?_⟩, ?_⟩, ?_⟩⟩
        · exact (Kernel.table_setHolder_self _).trans (h.copied process)
        · exact Kernel.table_setHolder_of_ne (Nat.ne_of_lt hprocess)
        · exact fun p hp _ => Kernel.table_setHolder_of_ne (Nat.ne_of_lt hp)
      next =>
        cases hstep
        exact ⟨h, fun _ => ⟨⟨nofun, rfl⟩, fun _ _ _ => rfl⟩⟩

/-- A process that is there keeps its opens. -/
theorem opens_le_tally (inherited : Bool) (s : Counted ω) (r : Reply)
    (hprocess : call.process < s.kernel.count) :
    s.opens call.process ≤ s.tally inherited r call call.process := by
  cases call with
  | openCall process sub pathName flags createMode =>
      rw [Counted.tally]
      split
      · rw [Call.process, Function.update_self]
        exact Nat.le_succ _
      · exact Nat.le_refl _
  | forkCall process copied =>
      rw [Counted.tally]
      split
      · rw [Function.update_of_ne (Nat.ne_of_lt hprocess)]
      · exact Nat.le_refl _
  | closeCall | readCall | writeCall | lseekCall | fstatCall =>
      exact Nat.le_refl _

end Held

/-! ## Runs of calls -/

theorem step_dispatch {s : Kernel ω} {call : Call} {out : Reply × Kernel ω}
    (h : s.step methods call = some out) :
    call.process < s.count ∧ s.dispatchSyscall methods call = some out := by
  rw [Kernel.step] at h
  split at h
  next hprocess => exact ⟨hprocess, h⟩
  next => cases h

theorem run_held {s t : Counted ω} {calls : List Call} (h : Held s)
    (hrun : calls.foldlM (Counted.step true methods) s = some t) : Held t := by
  induction calls generalizing s with
  | nil =>
      cases hrun
      exact h
  | cons call l ih =>
      rw [List.foldlM_cons, Counted.step] at hrun
      cases hstep : s.kernel.step methods call with
      | none =>
          rw [hstep] at hrun
          cases hrun
      | some out =>
          rw [hstep] at hrun
          obtain ⟨hprocess, hdispatch⟩ := step_dispatch hstep
          exact ih (h.dispatchSyscall hprocess hdispatch).1 hrun

/-- Every call of a run keeps the law, as long as no process has come to `2^32`
opens, those its ancestors had made when they forked included. -/
theorem inherited_descriptor_law (methods : NodeMethods ω) (vfs : Vfs)
    (world : ω) (filehandles : Nat → Filehandle) (count : Nat)
    {calls : List Call} {call : Call} {s : Counted ω} {r : Reply} {t : Kernel ω}
    (hrun : calls.foldlM (Counted.step true methods)
      (Counted.boot vfs world filehandles count) = some s)
    (hstep : s.kernel.step methods call = some (r, t))
    (hfew : ∀ process, s.tally true r call process < 4294967296) :
    Law s.kernel call r t := by
  have hheld := run_held (Held.boot vfs world filehandles count) hrun
  obtain ⟨hprocess, hdispatch⟩ := step_dispatch hstep
  refine (hheld.dispatchSyscall hprocess hdispatch).2 ?_
  exact Nat.lt_of_le_of_lt (Held.opens_le_tally true s r hprocess) (hfew _)

/-! ## A child that inherits its parent's opens -/

/-- Nodes that do nothing. -/
def idleNodes : NodeMethods Unit where
  isTty := fun _ => false
  length := fun _ _ => 0
  read := fun world _ _ buffer _ => some (world, buffer)
  write := fun world _ _ _ _ => some world
  stat := fun _ _ _ => 0

/-- One process, and a root filesystem. -/
def oneProcess : Counted Unit :=
  .boot (Vfs.init.mountRoot ['/']) () (fun _ => ⟨none, 0, 0, 0, 0⟩) 1

def openRoot (process : Nat) : Call :=
  .openCall process (fun _ _ _ => none) ['/'] 0 0

theorem closedInChild_descriptor_law :
    ∃ (s : Counted Unit) (r : Reply) (t : Kernel Unit),
      [openRoot 0, .forkCall 0 true].foldlM
        (Counted.step true idleNodes) oneProcess = some s ∧
      s.kernel.step idleNodes (.closeCall 1 0) = some (r, t) ∧
      Law s.kernel (.closeCall 1 0) r t := by
  have hrun : [openRoot 0, .forkCall 0 true].foldlM
      (Counted.step true idleNodes) oneProcess = some _ := rfl
  refine ⟨_, _, _, rfl, rfl, inherited_descriptor_law idleNodes
    (Vfs.init.mountRoot ['/']) () (fun _ => ⟨none, 0, 0, 0, 0⟩) 1 hrun rfl
    fun p => ?_⟩
  show Function.update (Function.update (fun _ => 0) 0 1) 1 1 p < 4294967296
  simp only [Function.update_apply]
  split
  · decide
  · split <;> decide

/-! ## A child that does not -/

/-- Process 0 alone, with its first descriptor and `n` opens. -/
structure Churned (s : Counted Unit) (n : Nat) : Prop where
  held : Held s
  count : s.kernel.count = 1
  opens : s.opens = Function.update (fun _ => 0) 0 n
  first : s.kernel.table 0 0 ≠ none
  root : ∃ root, s.kernel.vfs.mountedFilesystems ['/'] = some root

theorem openNode_root {v : Vfs} {root : Nat} (sub : Subnodes)
    (hroot : v.mountedFilesystems ['/'] = some root) :
    v.openNode sub ['/'] = (v.open root, some root) := by
  have hclean : cleanPath ['/'] = [['/']] := by decide
  rw [Vfs.openNode, Vfs.resolve, hclean]
  dsimp only
  rw [if_pos rfl, hroot]
  rfl

/-- An open of the root gives the next descriptor. -/
theorem openCall_root {s : Kernel Unit} {root : Nat} (process : Nat)
    (sub : Subnodes)
    (hroot : s.vfs.mountedFilesystems ['/'] = some root) :
    s.openCall process sub ['/'] 0 0 =
      ({ fileDescriptor := some (s.holders process).fdCounter },
        ({ s with vfs := s.vfs.open root }.pushFilehandle process root 0 0).1) := by
  rw [Kernel.openCall, openNode_root sub hroot]
  rfl

theorem step_tally {s : Counted ω} {inherited : Bool} {call : Call}
    {r : Reply} {t : Kernel ω} (hprocess : call.process < s.kernel.count)
    (hcall : s.kernel.dispatchSyscall methods call = some (r, t)) :
    Counted.step inherited methods s call =
      some ⟨t, s.tally inherited r call⟩ := by
  rw [Counted.step, Kernel.step, if_pos hprocess, hcall]

theorem step_openRoot {s : Counted Unit} {process root : Nat}
    (inherited : Bool) (hprocess : process < s.kernel.count)
    (hroot : s.kernel.vfs.mountedFilesystems ['/'] = some root) :
    Counted.step inherited idleNodes s (openRoot process) =
      some ⟨({ s.kernel with vfs := s.kernel.vfs.open root }.pushFilehandle
          process root 0 0).1,
        Function.update s.opens process (s.opens process + 1)⟩ := by
  have hlt : (openRoot process).process < s.kernel.count := hprocess
  exact step_tally hlt
    (congrArg some (openCall_root process (fun _ _ _ => none) hroot))

theorem step_closeCall {s : Counted ω} {process : Nat} (inherited : Bool)
    (hprocess : process < s.kernel.count) (fileDescriptor : Int) :
    Counted.step inherited methods s (.closeCall process fileDescriptor) =
      some ⟨(s.kernel.closeCall process fileDescriptor).2, s.opens⟩ := by
  have hlt : (Call.closeCall process fileDescriptor).process < s.kernel.count :=
    hprocess
  exact step_tally hlt rfl

theorem closeCall_count (s : Kernel ω) (process : Nat) (fileDescriptor : Int) :
    (s.closeCall process fileDescriptor).2.count = s.count := by
  rw [Kernel.closeCall]
  dsimp only
  split <;> rfl

theorem closeCall_mounted (s : Kernel ω) (process : Nat)
    (fileDescriptor : Int) :
    (s.closeCall process fileDescriptor).2.vfs.mountedFilesystems =
      s.vfs.mountedFilesystems := by
  rw [Kernel.closeCall]
  dsimp only
  split
  · exact Vfs.closeNode_mounted _ _
  · rfl

/-- An open of the root and a close of what it gave. -/
theorem Churned.next {s : Counted Unit} {n : Nat} (h : Churned s n)
    (hpos : 0 < n) (hn : n < 4294967296) :
    ∃ t, [openRoot 0, .closeCall 0 n].foldlM
        (Counted.step false idleNodes) s = some t ∧ Churned t (n + 1) := by
  obtain ⟨root, hroot⟩ := h.root
  have hprocess : 0 < s.kernel.count := by
    rw [h.count]
    exact Nat.zero_lt_one
  have hopens : s.opens 0 = n := by
    rw [h.opens, Function.update_self]
  have hcounter : (s.kernel.holders 0).fdCounter = n := by
    rw [h.held.counter_lt (by omega), hopens]
  have hclosed : u32 (n : Int) = n := u32_of_lt hn
  have hopen := step_openRoot false hprocess hroot
  have hheld := h.held.pushFilehandle (s.kernel.vfs.open root) 0 root 0 0
  have htable := Kernel.table_pushFilehandle_self
    { s.kernel with vfs := s.kernel.vfs.open root } 0 root 0 0
  have hcount : ({ s.kernel with vfs := s.kernel.vfs.open root }.pushFilehandle
    0 root 0 0).1.count = 1 := h.count
  have hmounted : ({ s.kernel with
    vfs := s.kernel.vfs.open root }.pushFilehandle
      0 root 0 0).1.vfs.mountedFilesystems ['/'] = some root :=
    (congrFun (Vfs.open_mounted ..) _).trans hroot
  generalize (({ s.kernel with vfs := s.kernel.vfs.open root } :
    Kernel Unit).pushFilehandle 0 root 0 0).1 = u at *
  have hcall : u.closeCall 0 n = (_, (u.closeCall 0 n).2) := rfl
  obtain ⟨hheld', hlaw⟩ := hheld.closeCall hcall
  have hclose : Counted.step false idleNodes
      ⟨u, Function.update s.opens 0 (s.opens 0 + 1)⟩ (.closeCall 0 n) = _ :=
    step_closeCall false (hcount.symm ▸ Nat.zero_lt_one) n
  refine ⟨_, ?_, hheld', ?_, ?_, ?_, ?_⟩
  · rw [List.foldlM_cons, hopen]
    show (Counted.step _ _ _ _ >>= fun t => pure t) = _
    rw [hclose]
    rfl
  · exact (closeCall_count u 0 n).trans hcount
  · show Function.update s.opens 0 (s.opens 0 + 1) = _
    rw [hopens, h.opens, Function.update_idem]
  · show (u.closeCall 0 n).2.table 0 0 ≠ none
    rw [hlaw.own.2, hclosed, Function.update_of_ne (Nat.ne_of_lt hpos), htable]
    show Function.update (s.kernel.table 0) (s.kernel.holders 0).fdCounter _ 0 ≠
      none
    rw [hcounter, Function.update_of_ne (Nat.ne_of_lt hpos)]
    exact h.first
  · exact ⟨root, (congrFun (closeCall_mounted u 0 n) _).trans hmounted⟩

theorem firstOpen_churned :
    ∃ t, [openRoot 0].foldlM (Counted.step false idleNodes) oneProcess =
      some t ∧ Churned t 1 := by
  have hroot : oneProcess.kernel.vfs.mountedFilesystems ['/'] = some 0 := rfl
  have hheld := (Held.boot (Vfs.init.mountRoot ['/']) ()
    (fun _ => ⟨none, 0, 0, 0, 0⟩) 1).pushFilehandle
      (oneProcess.kernel.vfs.open 0) 0 0 0 0
  refine ⟨_, rfl, hheld, rfl, rfl, ?_, 0, rfl⟩
  exact fun hnone => by cases hnone

theorem churn (n : Nat) (hn : n < 4294967295) :
    ∃ (calls : List Call) (t : Counted Unit),
      calls.foldlM (Counted.step false idleNodes) oneProcess = some t ∧
      Churned t (n + 1) := by
  induction n with
  | zero =>
      obtain ⟨t, hrun, ht⟩ := firstOpen_churned
      exact ⟨_, t, hrun, ht⟩
  | succ n ih =>
      obtain ⟨calls, t, hrun, ht⟩ := ih (by omega)
      obtain ⟨u, hnext, hu⟩ := ht.next (Nat.succ_pos n) (by omega)
      refine ⟨calls ++ [openRoot 0, .closeCall 0 (n + 1 : Nat)], u, ?_, hu⟩
      rw [List.foldlM_append, hrun]
      exact hnext

/-- The child has the table of its parent and its counter, and no opens of its
own. -/
theorem Churned.fork {s : Counted Unit} {n : Nat} (h : Churned s n)
    (hn : n < 4294967296) :
    ∃ t, Counted.step false idleNodes s (.forkCall 0 true) = some t ∧
      t.kernel.count = 2 ∧ t.kernel.vfs = s.kernel.vfs ∧
      (t.kernel.holders 1).fdCounter = n ∧
      t.kernel.table 1 = s.kernel.table 0 ∧
      t.opens = Function.update s.opens 1 0 := by
  have hlt : (Call.forkCall 0 true).process < s.kernel.count := by
    rw [h.count]
    exact Nat.zero_lt_one
  refine ⟨_, step_tally hlt rfl, ?_, rfl, ?_, ?_, ?_⟩
  · exact congrArg (· + 1) h.count
  · show (Function.update s.kernel.holders s.kernel.count _ 1).fdCounter = n
    rw [h.count, Function.update_self]
    show (s.kernel.holders 0).fdCounter = n
    rw [h.held.counter, h.opens, Function.update_self]
    exact u32_of_lt hn
  · show (s.kernel.setHolder s.kernel.count _).table 1 = _
    rw [h.count, Kernel.table_setHolder_self]
    exact h.held.copied 0
  · show Function.update s.opens s.kernel.count 0 = _
    rw [h.count]

/-- Counting each process's own opens is not enough: after `2^32 - 1` opens of
its parent a child gets that descriptor and then the one it has inherited. -/
theorem ownOpens_not_law :
    ∃ (calls : List Call) (s : Counted Unit) (r : Reply) (t : Kernel Unit),
      calls.foldlM (Counted.step false idleNodes) oneProcess = some s ∧
      s.kernel.step idleNodes (openRoot 1) = some (r, t) ∧
      (∀ process, s.tally false r (openRoot 1) process < 4294967296) ∧
      ¬ Law s.kernel (openRoot 1) r t := by
  obtain ⟨calls, s, hrun, hs⟩ := churn 4294967294 (by decide)
  obtain ⟨root, hroot⟩ := hs.root
  obtain ⟨u, hfork, hcount, hvfs, hcounter, htable, hopens⟩ :=
    hs.fork (by decide)
  rw [← hvfs] at hroot
  have hprocess : 1 < u.kernel.count := by
    rw [hcount]
    exact Nat.lt_succ_self 1
  have hopen := step_openRoot false hprocess hroot
  have hself := Kernel.table_pushFilehandle_self
    { u.kernel with vfs := u.kernel.vfs.open root } 1 root 0 0
  have hnext : (({ u.kernel with vfs := u.kernel.vfs.open root }.pushFilehandle
      1 root 0 0).1.holders 1).fdCounter = 0 := by
    show (Function.update u.kernel.holders 1 _ 1).fdCounter = 0
    rw [Function.update_self]
    show u32 ((u.kernel.holders 1).fdCounter + 1) = 0
    rw [hcounter]
    decide
  have hfirst : ({ u.kernel with
      vfs := u.kernel.vfs.open root }.pushFilehandle 1 root 0 0).1.table 1 0 ≠
        none := by
    rw [hself]
    show Function.update (u.kernel.table 1) (u.kernel.holders 1).fdCounter _ 0 ≠
      none
    rw [hcounter, Function.update_of_ne (by decide), htable]
    exact hs.first
  have hmounted : ({ u.kernel with
      vfs := u.kernel.vfs.open root }.pushFilehandle
        1 root 0 0).1.vfs.mountedFilesystems ['/'] = some root :=
    (congrFun (Vfs.open_mounted ..) _).trans hroot
  have hcount' : 1 < ({ u.kernel with
      vfs := u.kernel.vfs.open root }.pushFilehandle 1 root 0 0).1.count :=
    hprocess
  generalize (({ u.kernel with vfs := u.kernel.vfs.open root } :
    Kernel Unit).pushFilehandle 1 root 0 0).1 = v at *
  have hcall : v.step idleNodes (openRoot 1) = _ :=
    (if_pos hcount').trans
      (congrArg some (openCall_root 1 (fun _ _ _ => none) hmounted))
  refine ⟨calls ++ [.forkCall 0 true, openRoot 1],
    ⟨v, Function.update u.opens 1 (u.opens 1 + 1)⟩, _, _, ?_, hcall,
    fun p => ?_, fun hlaw => ?_⟩
  · rw [List.foldlM_append, hrun]
    show (Counted.step false idleNodes s _ >>= _) = _
    rw [hfork]
    show (Counted.step false idleNodes u _ >>= fun t => pure t) = _
    rw [hopen]
    rfl
  · show Function.update (Function.update u.opens 1 (u.opens 1 + 1)) 1 _ p < _
    rw [hopens, hs.opens]
    simp only [Function.update_apply]
    split
    · decide
    · split <;> decide
  · refine hfirst ?_
    rw [← hnext]
    exact (hlaw.own.1 _ rfl).1

end Iposix.Fs.FileCalls
