import Iposix.Proofs.DescriptorTable

/-!
# What a seek answers

A seek to a position inside the file is to answer this position, any other one
an error. The handle sees to the position, but it answers the dispatcher in
error numbers, and these become `true` on their way through `bool`; the
dispatcher takes `true` for success. So the error is reported for the seeks that
succeed, and for the others the caller gets back the offset it has given.

Both mistakes meet the law at once only where the length of the file does not
fit an `int64_t`: there no seek succeeds, and one to where the handle already is
asks for nothing.
-/

namespace Iposix.Fs.FileCalls

open Iposix.Lib

universe u

variable {ω : Type u} {methods : NodeMethods ω} {s : Kernel ω}
  {process node : Nat} {file position offset whence : Int}

/-- A descriptor of a process leads to a handle of a node at a position. -/
def OpenAt (s : Kernel ω) (process : Nat) (file : Int) (node : Nat)
    (position : Int) : Prop :=
  ∃ fh, s.table process (u32 file) = some fh ∧
    (s.filehandles fh).node = some node ∧ (s.filehandles fh).offset = position

/-- So do the next read and the next write. -/
structure StartsAt (methods : NodeMethods ω) (s : Kernel ω) (process : Nat)
    (file : Int) (node : Nat) (position : Int) : Prop where
  openAt : OpenAt s process file node position
  read : ∀ buffer length r t,
    s.readCall methods process file buffer length = some (r, t) →
    ∃ out, methods.read s.world node (u64 position) buffer length =
      some (t.world, out) ∧ r.buffer = some out
  write : ∀ buffer length r t,
    s.writeCall methods process file buffer length = some (r, t) →
    methods.write s.world node (u64 position) buffer length = some t.world

theorem OpenAt.startsAt (h : OpenAt s process file node position) :
    StartsAt methods s process file node position := by
  obtain ⟨fh, hfh, hnode, hoffset⟩ := h
  have hget : (s.holders process).getFilehandle (u32 file) = some fh := hfh
  refine ⟨⟨fh, hfh, hnode, hoffset⟩, fun buffer length r t hcall => ?_,
    fun buffer length r t hcall => ?_⟩
  · simp only [Kernel.readCall, hget, Filehandle.read, hnode, hoffset] at hcall
    cases hread : methods.read s.world node (u64 position) buffer length with
    | none =>
        rw [hread] at hcall
        cases hcall
    | some out =>
        rw [hread] at hcall
        cases hcall
        exact ⟨out.2, rfl, rfl⟩
  · simp only [Kernel.writeCall, hget, Filehandle.write, hnode, hoffset] at hcall
    cases hwrite : methods.write s.world node (u64 position) buffer length with
    | none =>
        rw [hwrite] at hcall
        cases hcall
    | some world =>
        rw [hwrite] at hcall
        cases hcall
        rfl

/-- The position a seek asks for. -/
def target (position length offset whence : Int) : Int :=
  if whence = SEEK_SET then offset
  else if whence = SEEK_CUR then position + offset
  else length + offset

theorem target_set (position length offset : Int) :
    target position length offset SEEK_SET = offset := if_pos rfl

theorem target_cur (position length offset : Int) :
    target position length offset SEEK_CUR = position + offset :=
  (if_neg (by decide)).trans (if_pos rfl)

theorem target_end (position length offset : Int) :
    target position length offset SEEK_END = length + offset :=
  (if_neg (by decide)).trans (if_neg (by decide))

/-- The law of a seek from a position. -/
structure SeekLaw (methods : NodeMethods ω) (s : Kernel ω) (process : Nat)
    (file : Int) (node : Nat) (position offset whence : Int) : Prop where
  inside :
    0 ≤ target position (methods.length s.world node) offset whence →
    target position (methods.length s.world node) offset whence <
      methods.length s.world node →
    (s.userLseek methods process file offset whence).1 =
        target position (methods.length s.world node) offset whence ∧
      (s.userLseek methods process file offset whence).2.1 = .none ∧
      StartsAt methods (s.userLseek methods process file offset whence).2.2
        process file node
        (target position (methods.length s.world node) offset whence)
  outside :
    ¬ (0 ≤ target position (methods.length s.world node) offset whence ∧
      target position (methods.length s.world node) offset whence <
        methods.length s.world node) →
    (s.userLseek methods process file offset whence).1 = -1 ∧
      (s.userLseek methods process file offset whence).2.1 ≠ .none ∧
      StartsAt methods (s.userLseek methods process file offset whence).2.2
        process file node position

/-! ## The handle -/

theorem seek_target {fh : Filehandle} {world : ω} {length : Nat}
    (hnode : fh.node = some node) (htty : methods.isTty node = false)
    (hlength : methods.length world node = length)
    (hwhence : whence = SEEK_SET ∨ whence = SEEK_CUR ∨ whence = SEEK_END)
    (hlo : -9223372036854775808 ≤ target fh.offset length offset whence)
    (hhi : target fh.offset length offset whence < 9223372036854775808) :
    fh.seek methods world offset whence =
      fh.seekTo (target fh.offset length offset whence) (i64 length) := by
  rw [Filehandle.seek, hnode]
  dsimp only
  rw [htty, if_neg Bool.false_ne_true, hlength]
  rcases hwhence with rfl | rfl | rfl
  · rw [if_pos rfl, target_set]
  · rw [target_cur] at hlo hhi ⊢
    have hfits : i64 (fh.offset + offset) = fh.offset + offset := by
      simp only [i64]
      omega
    rw [if_neg (by decide), if_pos rfl, hfits]
  · rw [target_end] at hlo hhi ⊢
    have hfits : i64 (i64 length + offset) = length + offset := by
      simp only [i64]
      omega
    rw [if_neg (by decide), if_neg (by decide), if_pos rfl, hfits]

theorem seekTo_of {fh : Filehandle} {position length : Int}
    (h : 0 ≤ position ∧ position < length) :
    fh.seekTo position length = (false, { fh with offset := position }) :=
  if_pos ⟨h.2, h.1⟩

theorem seekTo_of_not {fh : Filehandle} {position length : Int}
    (h : ¬ (0 ≤ position ∧ position < length)) :
    fh.seekTo position length = (true, fh) :=
  if_neg fun hin => h ⟨hin.2, hin.1⟩

/-! ## The dispatcher and the wrapper -/

/-- The answer is the other one. -/
theorem userLseek_seek (methods : NodeMethods ω) (offset whence : Int)
    {fh : Nat} (hfh : s.table process (u32 file) = some fh) :
    s.userLseek methods process file offset whence =
      (if ((s.filehandles fh).seek methods s.world offset whence).1 then
        (offset, .none, s.setFilehandle fh
          ((s.filehandles fh).seek methods s.world offset whence).2)
      else
        (-1, .eIllegalSeek, s.setFilehandle fh
          ((s.filehandles fh).seek methods s.world offset whence).2)) := by
  have hget : (s.holders process).getFilehandle (u32 file) = some fh := hfh
  simp only [Kernel.userLseek, Kernel.lseekCall, hget]
  cases ((s.filehandles fh).seek methods s.world offset whence).1 <;> rfl

theorem openAt_setFilehandle {fh : Nat} {filehandle : Filehandle}
    (hfh : s.table process (u32 file) = some fh)
    (hnode : filehandle.node = some node) :
    OpenAt (s.setFilehandle fh filehandle) process file node
      filehandle.offset := by
  refine ⟨fh, hfh, ?_, ?_⟩
  all_goals
    simp only [Kernel.setFilehandle, Function.update_self]
  exact hnode

section

variable {fh : Nat} (hfh : s.table process (u32 file) = some fh)
  (hnode : (s.filehandles fh).node = some node)
  (hseek : (s.filehandles fh).seek methods s.world offset whence =
    (s.filehandles fh).seekTo
      (target (s.filehandles fh).offset (methods.length s.world node) offset
        whence) (i64 (methods.length s.world node)))

include hfh hseek

/-- A seek that succeeds is answered by an error. -/
theorem not_lawful_of_moved
    (hin : 0 ≤ target (s.filehandles fh).offset (methods.length s.world node)
        offset whence ∧
      target (s.filehandles fh).offset (methods.length s.world node) offset
        whence < i64 (methods.length s.world node)) :
    ¬ SeekLaw methods s process file node (s.filehandles fh).offset offset
      whence := by
  intro hlaw
  have huser := userLseek_seek methods offset whence hfh
  rw [hseek, seekTo_of hin] at huser
  have hle : i64 (methods.length s.world node) ≤ methods.length s.world node := by
    simp only [i64]
    omega
  have hret := (hlaw.inside hin.1 (Int.lt_of_lt_of_le hin.2 hle)).1
  rw [huser] at hret
  have hneg : (-1 : Int) = target (s.filehandles fh).offset
    (methods.length s.world node) offset whence := hret
  omega

include hnode

/-- One that fails is answered by its own offset. -/
theorem lawful_iff_of_stayed
    (hout : ¬ (0 ≤ target (s.filehandles fh).offset
        (methods.length s.world node) offset whence ∧
      target (s.filehandles fh).offset (methods.length s.world node) offset
        whence < i64 (methods.length s.world node))) :
    SeekLaw methods s process file node (s.filehandles fh).offset offset
        whence ↔
      (0 ≤ target (s.filehandles fh).offset (methods.length s.world node)
          offset whence ∧
        target (s.filehandles fh).offset (methods.length s.world node) offset
          whence < methods.length s.world node) ∧
      offset = target (s.filehandles fh).offset (methods.length s.world node)
        offset whence ∧
      (s.filehandles fh).offset = target (s.filehandles fh).offset
        (methods.length s.world node) offset whence := by
  have huser := userLseek_seek methods offset whence hfh
  rw [hseek, seekTo_of_not hout, if_pos rfl] at huser
  constructor
  · intro hlaw
    by_cases hin : 0 ≤ target (s.filehandles fh).offset
        (methods.length s.world node) offset whence ∧
      target (s.filehandles fh).offset (methods.length s.world node) offset
        whence < methods.length s.world node
    · obtain ⟨hret, -, hstarts⟩ := hlaw.inside hin.1 hin.2
      rw [huser] at hret hstarts
      obtain ⟨fh', hfh', -, hoffset⟩ := hstarts.openAt
      obtain rfl : fh = fh' := Option.some.inj (hfh.symm.trans hfh')
      have hsame : (s.setFilehandle fh (s.filehandles fh)).filehandles fh =
        s.filehandles fh := Function.update_self ..
      refine ⟨hin, hret, ?_⟩
      rw [← hoffset]
      exact congrArg Filehandle.offset hsame.symm
    · obtain ⟨-, herror, -⟩ := hlaw.outside hin
      rw [huser] at herror
      exact absurd rfl herror
  · intro ⟨hin, hret, hoffset⟩
    refine ⟨fun _ _ => ?_, fun hno => absurd hin hno⟩
    rw [huser, ← hret]
    refine ⟨rfl, rfl, OpenAt.startsAt ?_⟩
    rw [hret, ← hoffset]
    exact openAt_setFilehandle hfh hnode

end

/-- The law holds only of a seek in a file of `2^63` bytes or more to where the
handle is. -/
theorem lseek_lawful_iff
    (hopen : OpenAt s process file node position)
    (htty : methods.isTty node = false)
    (hwhence : whence = SEEK_SET ∨ whence = SEEK_CUR ∨ whence = SEEK_END)
    (hlength : methods.length s.world node < 18446744073709551616)
    (hlo : -9223372036854775808 ≤
      target position (methods.length s.world node) offset whence)
    (hhi : target position (methods.length s.world node) offset whence <
      9223372036854775808) :
    SeekLaw methods s process file node position offset whence ↔
      9223372036854775808 ≤ methods.length s.world node ∧ 0 ≤ position ∧
        (whence = SEEK_SET ∧ offset = position ∨
          whence = SEEK_CUR ∧ offset = 0 ∧ position = 0) := by
  obtain ⟨fh, hfh, hnode, rfl⟩ := hopen
  have hseek := seek_target hnode htty rfl hwhence hlo hhi
  by_cases hin : 0 ≤ target (s.filehandles fh).offset
      (methods.length s.world node) offset whence ∧
    target (s.filehandles fh).offset (methods.length s.world node) offset
      whence < i64 (methods.length s.world node)
  · refine iff_of_false (not_lawful_of_moved hfh hseek hin) fun ⟨hbig, _⟩ => ?_
    generalize methods.length s.world node = length at *
    have hneg : i64 length < 0 := by
      simp only [i64]
      omega
    omega
  · rw [lawful_iff_of_stayed hfh hnode hseek hin]
    generalize methods.length s.world node = length at *
    generalize (s.filehandles fh).offset = position at *
    have hsmall : length < 9223372036854775808 → i64 length = length := i64_of_lt
    rcases hwhence with rfl | rfl | rfl
    · rw [target_set] at hin hhi ⊢
      have hne : SEEK_SET ≠ SEEK_CUR := by decide
      simp only [true_and, hne, false_and, or_false]
      omega
    · rw [target_cur] at hin hhi ⊢
      have hne : SEEK_CUR ≠ SEEK_SET := by decide
      simp only [true_and, hne, false_and, false_or]
      omega
    · rw [target_end] at hin hhi ⊢
      have hne : SEEK_END ≠ SEEK_SET := by decide
      have hne' : SEEK_END ≠ SEEK_CUR := by decide
      refine iff_of_false (fun h => ?_) ?_
      · omega
      · rintro ⟨-, -, ⟨h, -⟩ | ⟨h, -⟩⟩
        · exact hne h
        · exact hne' h

/-- Nodes of one length. -/
def sized (length : Nat) : NodeMethods Unit where
  isTty := fun _ => false
  length := fun _ _ => length
  read := fun world _ _ buffer _ => some (world, buffer)
  write := fun world _ _ _ _ => some world
  stat := fun _ _ _ => 0

/-- One process with descriptor 0 of the node 0, at position 3. -/
def atThree : Kernel Unit where
  vfs := Vfs.init
  world := ()
  filehandles := fun _ => ⟨some 0, 0, 0, 0, 3⟩
  next := 1
  holders := fun _ => ⟨AList.singleton 0 0, 1⟩
  count := 1

/-- The seek to where the handle is, in a file of `2^63` bytes, and one in a
file of ten. -/
theorem atThree_lseek :
    SeekLaw (sized 9223372036854775808) atThree 0 0 0 3 3 SEEK_SET ∧
      ¬ SeekLaw (sized 10) atThree 0 0 0 3 5 SEEK_SET :=
  ⟨(lseek_lawful_iff ⟨0, rfl, rfl, rfl⟩ rfl (.inl rfl) (by decide)
      (by decide) (by decide)).2 (by decide),
    fun h => absurd ((lseek_lawful_iff ⟨0, rfl, rfl, rfl⟩ rfl (.inl rfl)
      (by decide) (by decide) (by decide)).1 h) (by decide)⟩

/-- To byte 5 of ten: the position is right, the answer is an error. -/
theorem atThree_seek_reported :
    target 3 10 5 SEEK_SET = 5 ∧
      (atThree.userLseek (sized 10) 0 0 5 SEEK_SET).1 = -1 ∧
      (atThree.userLseek (sized 10) 0 0 5 SEEK_SET).2.1 = .eIllegalSeek ∧
      ¬ SeekLaw (sized 10) atThree 0 0 0 3 5 SEEK_SET := by
  refine ⟨rfl, by decide, by decide, fun hlaw => ?_⟩
  have hret := (hlaw.inside (by decide) (by decide)).1
  exact absurd hret (by decide)

end Iposix.Fs.FileCalls
