import Iposix.Lib.Run
import Iposix.Lib.Tiling
import Iposix.Proofs.DescriptorTable

/-!
# A handle that many processes use

A fork makes parent and child share their handles, and with a handle its
position. Whoever reads or writes through it, in whatever order, continues where
the one before has stopped: the ranges that are asked for are one behind the
other, so that nothing is read twice and nothing is left out. Other handles of the same
file, closes and more forks do not matter; a seek through the handle does.
-/

namespace Iposix.Fs.FileCalls

open Iposix.Lib

universe u

variable {ω : Type u} {methods : NodeMethods ω}

/-- A range of a node that is read or written. -/
structure Access where
  first : Nat
  length : Nat
  deriving DecidableEq

def Access.last (a : Access) : Nat := a.first + a.length

namespace Kernel

variable (s : Kernel ω) (i : Nat)

/-- The range that handle `i` asks its node for in a call. -/
def access : Call → List Access
  | .readCall process fileDescriptor _ length
  | .writeCall process fileDescriptor _ length =>
      if s.table process (u32 fileDescriptor) = some i then
        [⟨u64 (s.filehandles i).offset, length⟩]
      else []
  | _ => []

/-- A call that sets the position of handle `i`. -/
def Seeks : Call → Prop
  | .lseekCall process fileDescriptor .. =>
      s.table process (u32 fileDescriptor) = some i
  | _ => False

end Kernel

/-- The ranges of a run. -/
def accesses (methods : NodeMethods ω) (i : Nat) :
    Counted ω → List Call → List Access
  | _, [] => []
  | s, call :: calls =>
      s.kernel.access i call ++
        (s.step true methods call).elim [] fun t => accesses methods i t calls

def total (l : List Access) : Nat := (l.map Access.length).sum

theorem total_append (l k : List Access) : total (l ++ k) = total l + total k := by
  rw [total, List.map_append, List.sum_append]
  rfl

/-! ## One call -/

/-- A read or a write moves the position by its length. -/
theorem Filehandle.read_offset {fh fh' : Filehandle} {world world' : ω}
    {buffer out : Nat → UInt8} {length result p : Nat}
    (hnode : fh.node ≠ none) (hp : fh.offset = p)
    (hsmall : p + length < 9223372036854775808)
    (h : fh.read methods world buffer length =
      some (result, fh', world', out)) : fh'.offset = (p + length : Nat) := by
  rw [read] at h
  split at h
  next hnone => exact absurd hnone hnode
  next node hsome =>
    obtain ⟨w, -, hw⟩ := Option.bind_eq_some_iff.1 h
    cases hw
    show i64 (fh.offset + length) = _
    rw [hp]
    exact i64_of_lt hsmall

theorem Filehandle.write_offset {fh fh' : Filehandle} {world world' : ω}
    {buffer : Nat → UInt8} {length result p : Nat}
    (hnode : fh.node ≠ none) (hp : fh.offset = p)
    (hsmall : p + length < 9223372036854775808)
    (h : fh.write methods world buffer length =
      some (result, fh', world')) : fh'.offset = (p + length : Nat) := by
  rw [write] at h
  split at h
  next hnone => exact absurd hnone hnode
  next node hsome =>
    obtain ⟨w, -, hw⟩ := Option.bind_eq_some_iff.1 h
    cases hw
    show i64 (fh.offset + length) = _
    rw [hp]
    exact i64_of_lt hsmall

namespace Held

variable {s : Counted ω} {i p : Nat}

/-- What a call does to the position of a handle: it moves by what is asked of
its node. -/
structure Moves (s : Kernel ω) (i p : Nat) (call : Call) (t : Kernel ω) :
    Prop where
  offset : (t.filehandles i).offset = (p + total (s.access i call) : Nat)
  starts : ∀ a, a ∈ s.access i call → a.first = p
  one : (s.access i call).length ≤ 1
  next : s.next ≤ t.next

/-- The calls that ask nothing of the node leave the handle alone. -/
theorem moves_of_same {call : Call} {t : Kernel ω}
    (hp : (s.kernel.filehandles i).offset = p)
    (haccess : s.kernel.access i call = [])
    (hsame : t.filehandles i = s.kernel.filehandles i)
    (hnext : s.kernel.next ≤ t.next) : Moves s.kernel i p call t := by
  refine ⟨?_, fun a ha => ?_, ?_, hnext⟩
  · rw [haccess, hsame]
    exact hp
  · rw [haccess] at ha
    cases ha
  · rw [haccess]
    exact Nat.zero_le 1

/-- A read or write through some handle. -/
theorem moves_of_used {call : Call} {process length fd : Nat}
    {fileDescriptor : Int} {fh : Filehandle} {world : ω}
    (h : Held s) (hp : (s.kernel.filehandles i).offset = p)
    (hfd : s.kernel.table process (u32 fileDescriptor) = some fd)
    (haccess : s.kernel.access i call =
      if s.kernel.table process (u32 fileDescriptor) = some i then
        [⟨u64 (s.kernel.filehandles i).offset, length⟩]
      else [])
    (hsmall : p + total (s.kernel.access i call) < 9223372036854775808)
    (hmoved : ∀ q : Nat, (s.kernel.filehandles fd).node ≠ none →
      (s.kernel.filehandles fd).offset = q →
      q + length < 9223372036854775808 → fh.offset = (q + length : Nat)) :
    Moves s.kernel i p call
      ({ s.kernel with world := world }.setFilehandle fd fh) := by
  have hnode := h.node process _ fd hfd
  by_cases hi : fd = i
  · subst hi
    rw [if_pos hfd, hp, u64_of_lt (by rw [total] at hsmall; omega)] at haccess
    have htotal : total (s.kernel.access fd call) = length := by
      rw [haccess]
      exact Nat.add_zero length
    refine ⟨?_, fun a ha => ?_, ?_, Nat.le_refl _⟩
    · show (Function.update s.kernel.filehandles fd fh fd).offset = _
      rw [Function.update_self, htotal]
      exact hmoved p hnode hp (htotal ▸ hsmall)
    · rw [haccess] at ha
      rw [List.mem_singleton.1 ha]
    · rw [haccess]
      exact Nat.le_refl 1
  · refine moves_of_same hp ?_ (Function.update_of_ne (Ne.symm hi) ..)
      (Nat.le_refl _)
    rw [haccess, hfd]
    exact if_neg fun hsome => hi (Option.some.inj hsome)

theorem dispatch_moves {call : Call} {r : Reply} {t : Kernel ω}
    (h : Held s) (hi : i < s.kernel.next)
    (hp : (s.kernel.filehandles i).offset = p)
    (hseek : ¬ s.kernel.Seeks i call)
    (hsmall : p + total (s.kernel.access i call) < 9223372036854775808)
    (hstep : s.kernel.dispatchSyscall methods call = some (r, t)) :
    Moves s.kernel i p call t := by
  cases call with
  | openCall process sub pathName flags createMode =>
      have hopen : s.kernel.openCall process sub pathName flags createMode =
          (r, t) := Option.some.inj hstep
      rw [Kernel.openCall] at hopen
      split at hopen
      next vfs file =>
        cases hopen
        exact moves_of_same hp rfl (Function.update_of_ne (Nat.ne_of_lt hi) ..)
          (Nat.le_succ _)
      next vfs =>
        cases hopen
        exact moves_of_same hp rfl rfl (Nat.le_refl _)
  | closeCall process fileDescriptor =>
      have hclose : s.kernel.closeCall process fileDescriptor = (r, t) :=
        Option.some.inj hstep
      rw [Kernel.closeCall] at hclose
      dsimp only at hclose
      split at hclose
      all_goals
        cases hclose
        exact moves_of_same hp rfl rfl (Nat.le_refl _)
  | readCall process fileDescriptor buffer length =>
      simp only [Kernel.dispatchSyscall, Kernel.readCall] at hstep
      split at hstep
      next fd hfd =>
        obtain ⟨⟨result, fh, world, out⟩, hread, hout⟩ :=
          Option.bind_eq_some_iff.1 hstep
        cases hout
        exact h.moves_of_used hp hfd rfl hsmall fun q hnode hq hlt =>
          Filehandle.read_offset hnode hq hlt hread
      next hfd =>
        cases hstep
        refine moves_of_same hp (if_neg fun hsome => ?_) rfl (Nat.le_refl _)
        cases hfd.symm.trans hsome
  | writeCall process fileDescriptor buffer length =>
      simp only [Kernel.dispatchSyscall, Kernel.writeCall] at hstep
      split at hstep
      next fd hfd =>
        obtain ⟨⟨result, fh, world⟩, hwrite, hout⟩ :=
          Option.bind_eq_some_iff.1 hstep
        cases hout
        exact h.moves_of_used hp hfd rfl hsmall fun q hnode hq hlt =>
          Filehandle.write_offset hnode hq hlt hwrite
      next hfd =>
        cases hstep
        refine moves_of_same hp (if_neg fun hsome => ?_) rfl (Nat.le_refl _)
        cases hfd.symm.trans hsome
  | lseekCall process fileDescriptor offset number =>
      simp only [Kernel.dispatchSyscall, Kernel.lseekCall] at hstep
      split at hstep
      next fd hfd =>
        cases hstep
        have hne : i ≠ fd := fun heq => hseek (heq ▸ hfd)
        exact moves_of_same hp rfl (Function.update_of_ne hne ..)
          (Nat.le_refl _)
      next hfd =>
        cases hstep
        exact moves_of_same hp rfl rfl (Nat.le_refl _)
  | fstatCall process fileDescriptor st =>
      simp only [Kernel.dispatchSyscall, Kernel.fstatCall] at hstep
      split at hstep
      all_goals
        cases hstep
        exact moves_of_same hp rfl rfl (Nat.le_refl _)
  | forkCall process copied =>
      simp only [Kernel.dispatchSyscall, Kernel.forkCall] at hstep
      split at hstep
      all_goals
        cases hstep
        exact moves_of_same hp rfl rfl (Nat.le_refl _)

end Held

/-! ## Runs -/

theorem Counted.step_some {s t : Counted ω} {call : Call}
    (h : Counted.step true methods s call = some t) :
    ∃ r, s.kernel.step methods call = some (r, t.kernel) := by
  rw [Counted.step] at h
  split at h
  next => cases h
  next r u hstep =>
    cases h
    exact ⟨r, hstep⟩

/-- Tiles of at most one range that is not empty. -/
theorem tiles_of_one {l : List Access} {p : Nat}
    (hstarts : ∀ a, a ∈ l → a.first = p) (hone : l.length ≤ 1) :
    Tiles Access.first Access.last p (l.filter fun a => 0 < a.length)
      (p + total l) := by
  match l, hone with
  | [], _ => rfl
  | [a], _ =>
      have hfirst := hstarts a List.mem_cons_self
      have htotal : total [a] = a.length := Nat.add_zero _
      rw [htotal]
      by_cases hpos : 0 < a.length
      · rw [List.filter_cons_of_pos (by simpa using hpos)]
        refine ⟨hfirst, Nat.lt_add_of_pos_right hpos, ?_⟩
        show a.first + a.length = _
        rw [hfirst]
      · rw [List.filter_cons_of_neg (by simpa using hpos),
          Nat.eq_zero_of_not_pos hpos]
        rfl

theorem accesses_spec {i : Nat} : ∀ {calls : List Call} {s t : Counted ω}
    {p : Nat}, Held s → i < s.kernel.next →
    (s.kernel.filehandles i).offset = p →
    calls.foldlM (Counted.step true methods) s = some t →
    Meets (Counted.step true methods) (fun s call => ¬ s.kernel.Seeks i call)
      s calls →
    p + total (accesses methods i s calls) < 9223372036854775808 →
    (t.kernel.filehandles i).offset =
        (p + total (accesses methods i s calls) : Nat) ∧
      Tiles Access.first Access.last p
        ((accesses methods i s calls).filter fun a => 0 < a.length)
        (p + total (accesses methods i s calls)) := by
  intro calls
  induction calls with
  | nil =>
      intro s t p _ _ hp hrun _ _
      cases hrun
      exact ⟨hp, rfl⟩
  | cons call calls ih =>
      intro s t p h hi hp hrun hmeets hsmall
      rw [List.foldlM_cons] at hrun
      obtain ⟨u, hstep, hrest⟩ := Option.bind_eq_some_iff.1 hrun
      obtain ⟨r, hkernel⟩ := Counted.step_some hstep
      obtain ⟨hprocess, hdispatch⟩ := step_dispatch hkernel
      have haccesses : accesses methods i s (call :: calls) =
          s.kernel.access i call ++ accesses methods i u calls := by
        rw [accesses, hstep]
        rfl
      rw [haccesses, total_append, ← Nat.add_assoc] at hsmall ⊢
      have hmoves := h.dispatch_moves hi hp hmeets.1 (by omega) hdispatch
      have hone : [call].foldlM (Counted.step true methods) s = some u := by
        rw [List.foldlM_cons, hstep]
        rfl
      have hheld : Held u := run_held h hone
      obtain ⟨hoffset, htiles⟩ := ih hheld (Nat.lt_of_lt_of_le hi hmoves.next)
        hmoves.offset hrest (hmeets.2 u hstep) hsmall
      refine ⟨hoffset, ?_⟩
      rw [List.filter_append]
      exact Tiles.append.2 ⟨_, tiles_of_one hmoves.starts hmoves.one, htiles⟩

/-- The ranges that are read and written through one handle, by all processes
that share it, lie one behind the other from where the handle stood, and that is
where it stands afterwards, unless someone seeks. -/
theorem shared_position (methods : NodeMethods ω) (vfs : Vfs) (world : ω)
    (filehandles : Nat → Filehandle) (count : Nat) {before calls : List Call}
    {s t : Counted ω} {process fd i p : Nat}
    (hbefore : before.foldlM (Counted.step true methods)
      (Counted.boot vfs world filehandles count) = some s)
    (hheld : s.kernel.table process fd = some i)
    (hp : (s.kernel.filehandles i).offset = p)
    (hrun : calls.foldlM (Counted.step true methods) s = some t)
    (hseek : Meets (Counted.step true methods)
      (fun s call => ¬ s.kernel.Seeks i call) s calls)
    (hsmall : p + total (accesses methods i s calls) < 9223372036854775808) :
    (t.kernel.filehandles i).offset =
        (p + total (accesses methods i s calls) : Nat) ∧
      Tiles Access.first Access.last p
        ((accesses methods i s calls).filter fun a => 0 < a.length)
        (p + total (accesses methods i s calls)) := by
  have hs := run_held (Held.boot vfs world filehandles count) hbefore
  exact accesses_spec hs (hs.lt process fd i hheld) hp hrun hseek hsmall

/-- A process has opened the root and forked. -/
def sharedRoot : Counted Unit :=
  ([openRoot 0, .forkCall 0 true].foldlM (Counted.step true idleNodes)
    oneProcess).getD oneProcess

/-- Parent and child read in turns, and the child goes on alone. -/
def readInTurns : List Call :=
  [.readCall 0 0 (fun _ => 0) 3, .readCall 1 0 (fun _ => 0) 2, .closeCall 0 0,
    .readCall 1 0 (fun _ => 0) 4]

theorem readInTurns_position :
    accesses idleNodes 0 sharedRoot readInTurns = [⟨0, 3⟩, ⟨3, 2⟩, ⟨5, 4⟩] ∧
      ∃ t, readInTurns.foldlM (Counted.step true idleNodes) sharedRoot =
          some t ∧
        (t.kernel.filehandles 0).offset =
          (0 + total (accesses idleNodes 0 sharedRoot readInTurns) : Nat) ∧
        Tiles Access.first Access.last 0
          ((accesses idleNodes 0 sharedRoot readInTurns).filter fun a =>
            0 < a.length)
          (0 + total (accesses idleNodes 0 sharedRoot readInTurns)) := by
  have hbefore : [openRoot 0, .forkCall 0 true].foldlM
      (Counted.step true idleNodes) oneProcess = some sharedRoot := rfl
  have hheld : sharedRoot.kernel.table 0 0 = some 0 := rfl
  have hseek : Meets (Counted.step true idleNodes)
      (fun s call => ¬ s.kernel.Seeks 0 call) sharedRoot readInTurns := by
    refine meets_of_forall (fun call hcall s => ?_) _
    simp only [readInTurns, List.mem_cons, List.not_mem_nil, or_false] at hcall
    rcases hcall with rfl | rfl | rfl | rfl <;> exact not_false
  refine ⟨rfl, _, rfl, ?_⟩
  exact shared_position idleNodes (Vfs.init.mountRoot ['/']) ()
    (fun _ => ⟨none, 0, 0, 0, 0⟩) 1 hbefore hheld rfl rfl hseek (by decide)

end Iposix.Fs.FileCalls
