import Iposix.Proofs.DriveStack
import Iposix.Proofs.FileBounds

/-!
# A volume is a store of files

The files of a volume are byte arrays of their own: whatever is read from and
written to them, in whatever order, each read delivers what was last written to
that file at that place, or what was there at the beginning. `Store.step` is
this store; the nodes of a FAT filesystem on a partition of a drive refine it.

What it takes is that no byte of the volume belongs to two files, or to one file
twice, and that no request begins behind the end of its file.
-/

namespace Iposix.Fs

open Iposix.Lib

open Iposix.Devices (Bytes)

variable {ι : Type*} {σ : Type*}

/-! ## The store -/

/-- A call of `read` or `write` on a file; `buffer` is what the caller's buffer
holds. -/
structure Request (ι : Type*) where
  write : Bool
  file : ι
  offset : Nat
  length : Nat
  buffer : Bytes

/-- What the files hold. -/
abbrev Store (ι : Type*) := ι → Bytes

namespace Store

/-- The buffer afterwards, and the store. Nothing is transferred behind the end
of a file. -/
def step [DecidableEq ι] (size : ι → Nat) (r : Request ι) (s : Store ι) :
    Bytes × Store ι :=
  let length := min r.length (size r.file - r.offset)
  if r.write then
    (r.buffer, Function.update s r.file
      (splice (s r.file) r.offset length r.buffer))
  else (splice r.buffer 0 length (window (s r.file) r.offset), s)

/-- The buffers after each of the requests. -/
def answers [DecidableEq ι] (size : ι → Nat) :
    List (Request ι) → Store ι → List Bytes
  | [], _ => []
  | r :: rest, s => (step size r s).1 :: answers size rest (step size r s).2

end Store

/-! ## The files of a volume -/

/-- The nodes of files of one filesystem, whose bytes lie within the first
`space` bytes of the container, each at a place of its own. -/
structure Files (ι : Type*) (space : Nat) where
  fs : FatFs
  clusterSize_pos : 0 < fs.clusterSize
  cluster : ι → Nat
  size : ι → Nat
  size_lt : ∀ i, size i < 4294967296
  placed : ∀ i k, k < size i →
    ∃ a, fs.fileAddress (cluster i) k = some a ∧ a < space
  apart : ∀ i j k l a, k < size i → l < size j →
    fs.fileAddress (cluster i) k = some a →
    fs.fileAddress (cluster j) l = some a → i = j ∧ k = l

namespace Files

variable {space : Nat} (files : Files ι space)

def node (i : ι) : FatFsNode where
  fs := files.fs
  isDirectory := false
  cluster := files.cluster i
  size := files.size i

/-- A request to its node; the buffer and the container afterwards. -/
def serve (container : Container σ) (r : Request ι) (dev : σ) :
    Option (Bytes × σ) :=
  if r.write then
    ((files.node r.file).writeOn container dev r.offset r.buffer r.length).map
      fun dev => (r.buffer, dev)
  else (files.node r.file).readOn container dev r.offset r.buffer r.length

/-- The requests one after the other. -/
def serveAll (container : Container σ) :
    List (Request ι) → σ → Option (List Bytes × σ)
  | [], dev => some ([], dev)
  | r :: rest, dev =>
      match files.serve container r dev with
      | none => none
      | some (buffer, dev) =>
          (serveAll container rest dev).map fun (buffers, dev) =>
            (buffer :: buffers, dev)

/-- A request that begins in its file or at its end. -/
def Fits (r : Request ι) : Prop :=
  r.offset ≤ files.size r.file ∧ r.length < 4294967296

/-- The store is what lies at the places of the files. -/
def Holds (bytes : Bytes) (s : Store ι) : Prop :=
  ∀ i k a, k < files.size i → files.fs.fileAddress (files.cluster i) k = some a →
    bytes a = s i k

/-- A place that belongs to no file. -/
def Elsewhere (a : Nat) : Prop :=
  ∀ i k, k < files.size i → files.fs.fileAddress (files.cluster i) k ≠ some a

variable {files} {container : Container σ} {disk : σ → Bytes}
  {first most : Nat} {r : Request ι} {s : Store ι} {dev : σ}

theorem node_isFile (files : Files ι space) (i : ι) : (files.node i).IsFile :=
  ⟨rfl, files.clusterSize_pos, files.size_lt i⟩

/-- What a request moves: it is cut at the end of the file. -/
theorem cut_eq (hfits : files.Fits r) :
    (files.node r.file).cut r.offset r.length =
      min r.length (files.size r.file - r.offset) :=
  FatFsNode.cut_of_le (files.node_isFile r.file) hfits.2 hfits.1

/-- The cluster input and output a request comes down to, over the container and
on flat bytes. -/
theorem clusterIoOn_request (h : container.Serves disk first space most)
    (hmost : files.fs.clusterSize ≤ most) (hfits : files.Fits r)
    (ioType : FatIoType) (dev : σ) :
    ∃ dev' out flat, files.fs.clusterIoOn container
        (min r.length (files.size r.file - r.offset) + 1) ioType
        (files.cluster r.file) r.offset dev r.buffer
        (min r.length (files.size r.file - r.offset)) = some (dev', out) ∧
      files.fs.clusterIo (min r.length (files.size r.file - r.offset) + 1)
        ioType (files.cluster r.file) r.offset (window (disk dev) first)
        r.buffer (min r.length (files.size r.file - r.offset)) =
          some (flat, out) ∧
      disk dev' = graft (disk dev) first flat := by
  obtain ⟨hoff, hlen⟩ := hfits
  have hsize := files.size_lt r.file
  have hidx : r.offset / files.fs.clusterSize < 4294967296 :=
    Nat.lt_of_le_of_lt (Nat.div_le_self _ _) (by omega)
  refine FatFs.clusterIoOn_simulates h files.clusterSize_pos hmost hidx
    (by omega) (Nat.lt_succ_self _) (fun k a hk ha => ?_) dev r.buffer
  obtain ⟨b, hb, hlt⟩ := files.placed r.file (r.offset + k) (by omega)
  rw [ha] at hb
  exact Option.some.inj hb ▸ hlt

/-- A read delivers the store's bytes and leaves the disk alone. -/
theorem serve_read (h : container.Serves disk first space most)
    (hmost : files.fs.clusterSize ≤ most) (hfits : files.Fits r)
    (hs : files.Holds (window (disk dev) first) s) [DecidableEq ι]
    (hread : r.write = false) :
    ∃ dev', files.serve container r dev =
        some ((s.step files.size r).1, dev') ∧ disk dev' = disk dev := by
  obtain ⟨dev', out, flat, hrun, hflat, hdisk⟩ :=
    clusterIoOn_request h hmost hfits .clusterRead dev
  obtain ⟨hoff, hlen⟩ := hfits
  have hsize := files.size_lt r.file
  obtain ⟨out', hout, hbytes⟩ := files.fs.clusterIo_read (files.cluster r.file)
    r.offset (min r.length (files.size r.file - r.offset)) _
    (window (disk dev) first) r.buffer files.clusterSize_pos
    (Nat.lt_of_le_of_lt (Nat.div_le_self _ _) (by omega)) (by omega)
    (Nat.lt_succ_self _)
  rw [hout] at hflat
  obtain ⟨rfl, rfl⟩ := Prod.mk.inj (Option.some.inj hflat)
  have hanswer : out' = (s.step files.size r).1 := by
    funext k
    rw [hbytes, Store.step, hread]
    show _ = splice r.buffer 0 _ _ k
    by_cases hk : k < min r.length (files.size r.file - r.offset)
    · obtain ⟨a, ha, -⟩ := files.placed r.file (r.offset + k) (by omega)
      rw [if_pos hk, splice_mem (Nat.zero_le _) (by omega), FatFs.fileByte, ha,
        Option.map_some, Option.getD_some, hs _ _ _ (by omega) ha, window_apply,
        Nat.sub_zero]
    · rw [if_neg hk, splice_ge (by omega)]
  refine ⟨dev', ?_, hdisk.trans (graft_window_self _ _)⟩
  rw [serve, hread, if_neg Bool.false_ne_true, FatFsNode.readOn,
    if_neg (by exact Bool.false_ne_true)]
  show Option.map Prod.swap (files.fs.clusterIoOn container
    ((files.node r.file).cut r.offset r.length + 1) .clusterRead
    (files.cluster r.file) _ _ _ ((files.node r.file).cut r.offset r.length)) = _
  rw [cut_eq ⟨hoff, hlen⟩, hrun, Option.map_some, hanswer]
  rfl

/-- A write does to the files what it does to the store. -/
theorem serve_write (h : container.Serves disk first space most)
    (hmost : files.fs.clusterSize ≤ most) (hfits : files.Fits r)
    (hs : files.Holds (window (disk dev) first) s) [DecidableEq ι]
    (hwrite : r.write = true) :
    ∃ dev', files.serve container r dev =
        some ((s.step files.size r).1, dev') ∧
      files.Holds (window (disk dev') first) (s.step files.size r).2 ∧
      ∀ b, (∀ a, first + a = b → files.Elsewhere a) →
        disk dev' b = disk dev b := by
  obtain ⟨dev', out, flat, hrun, hflat, hdisk⟩ :=
    clusterIoOn_request h hmost hfits .clusterWrite dev
  obtain ⟨hoff, hlen⟩ := hfits
  have hsize := files.size_lt r.file
  obtain ⟨flat', hout, hkeep, hput⟩ := files.fs.clusterIo_write
    (files.cluster r.file) r.offset
    (min r.length (files.size r.file - r.offset)) _ (window (disk dev) first)
    r.buffer files.clusterSize_pos
    (Nat.lt_of_le_of_lt (Nat.div_le_self _ _) (by omega)) (by omega)
    (Nat.lt_succ_self _)
  rw [hout] at hflat
  obtain ⟨rfl, rfl⟩ := Prod.mk.inj (Option.some.inj hflat)
  have hanswer : (s.step files.size r).1 = r.buffer := by
    rw [Store.step, hwrite]
    rfl
  refine ⟨dev', ?_, fun i k a hk ha => ?_, fun b hb => ?_⟩
  · rw [serve, hwrite, if_pos rfl, FatFsNode.writeOn,
      if_neg (by exact Bool.false_ne_true)]
    show Option.map _ (Option.map Prod.fst (files.fs.clusterIoOn container
      ((files.node r.file).cut r.offset r.length + 1) .clusterWrite
      (files.cluster r.file) _ _ _ ((files.node r.file).cut r.offset r.length))) = _
    rw [cut_eq ⟨hoff, hlen⟩, hrun, hanswer]
    rfl
  · rw [hdisk, window_graft, Store.step, hwrite]
    show _ = Function.update s r.file _ i k
    by_cases hin : i = r.file ∧ r.offset ≤ k ∧
        k < r.offset + min r.length (files.size r.file - r.offset)
    · obtain ⟨rfl, hlo, hhi⟩ := hin
      have ha' : files.fs.fileAddress (files.cluster r.file)
          (r.offset + (k - r.offset)) = some a := by
        rwa [Nat.add_sub_cancel' hlo]
      obtain ⟨j, hj, hja, hbyte⟩ := hput (k - r.offset) a (by omega) ha'
      obtain ⟨-, hjk⟩ := files.apart _ _ _ _ _ (by omega) hk hja ha
      rw [Function.update_self, splice_mem hlo hhi, hbyte]
      congr 1
      omega
    · -- the place is not one of the request's
      have hold : flat' a = s i k := by
        rw [hkeep a fun l hl hla => ?_]
        · exact hs i k a hk ha
        · obtain ⟨rfl, rfl⟩ := files.apart _ _ _ _ _ hk (by omega) ha hla
          exact hin ⟨rfl, by omega, by omega⟩
      rw [hold, Function.update_apply]
      split
      next heq =>
        subst heq
        rw [splice]
        exact (if_neg fun hrange => hin ⟨rfl, hrange⟩).symm
      next => rfl
  · rw [hdisk, graft]
    split
    next hle =>
      rw [hkeep (b - first) fun k hk => hb (b - first) (by omega) r.file _
        (by omega), window, Nat.add_sub_cancel' hle]
    next => rfl

/-- Requests in any order: each gets the store's answer, and what belongs to no
file stays as it was. -/
theorem serveAll_spec (h : container.Serves disk first space most)
    (hmost : files.fs.clusterSize ≤ most) [DecidableEq ι] :
    ∀ (requests : List (Request ι)) (dev : σ) (s : Store ι),
      (∀ r ∈ requests, files.Fits r) →
      files.Holds (window (disk dev) first) s →
      ∃ dev', files.serveAll container requests dev =
          some (s.answers files.size requests, dev') ∧
        ∀ b, (∀ a, first + a = b → files.Elsewhere a) →
          disk dev' b = disk dev b := by
  intro requests
  induction requests with
  | nil => intro dev s _ _; exact ⟨dev, rfl, fun _ _ => rfl⟩
  | cons r rest ih =>
      intro dev s hfits hs
      have hstep : ∃ dev₁, files.serve container r dev =
            some ((s.step files.size r).1, dev₁) ∧
          files.Holds (window (disk dev₁) first) (s.step files.size r).2 ∧
          ∀ b, (∀ a, first + a = b → files.Elsewhere a) →
            disk dev₁ b = disk dev b := by
        cases hw : r.write with
        | true =>
            exact serve_write h hmost (hfits r List.mem_cons_self) hs hw
        | false =>
            obtain ⟨dev₁, hserve, hdisk⟩ :=
              serve_read h hmost (hfits r List.mem_cons_self) hs hw
            refine ⟨dev₁, hserve, ?_, fun b _ => congrFun hdisk b⟩
            rw [hdisk, Store.step, hw]
            exact hs
      obtain ⟨dev₁, hserve, hs₁, helse₁⟩ := hstep
      obtain ⟨dev', hrest, helse⟩ := ih dev₁ _
        (fun r' hr' => hfits r' (List.mem_cons_of_mem _ hr')) hs₁
      refine ⟨dev', ?_, fun b hb => (helse b hb).trans (helse₁ b hb)⟩
      rw [serveAll, hserve]
      dsimp only
      rw [hrest]
      rfl

/-- What the files of a volume hold. -/
def contents (files : Files ι space) (bytes : Bytes) : Store ι := fun i k =>
  (files.fs.fileByte bytes (files.cluster i) k).getD 0

theorem holds_contents (files : Files ι space) (bytes : Bytes) :
    files.Holds bytes (files.contents bytes) := by
  intro i k a _ ha
  rw [contents, FatFs.fileByte, ha]
  rfl

/-- Two files of two bytes and of one byte, in a cluster each. -/
def twoFiles : Files Bool (1024 - 512) where
  fs := { FatFs.twoClusters with
    clustertable := { data := some fun _ => 0xFF, add := 0, type := .fat16 } }
  clusterSize_pos := by decide
  cluster := fun i => if i then 1 else 0
  size := fun i => if i then 1 else 2
  size_lt := by decide
  placed i k hk := by
    have hlt : k < 2 := by
      cases i
      · exact hk
      · exact Nat.lt_trans hk (by decide)
    refine ⟨_, FatFs.fileAddress_of_lt hlt, ?_⟩
    cases i
    · exact Nat.lt_trans (Nat.add_lt_add_left hlt 4) (by decide)
    · exact Nat.lt_trans (Nat.add_lt_add_left hlt 6) (by decide)
  apart i j k l a hk hl hi hj := by
    have hk₂ : k < 2 := by
      cases i
      · exact hk
      · exact Nat.lt_trans hk (by decide)
    have hl₂ : l < 2 := by
      cases j
      · exact hl
      · exact Nat.lt_trans hl (by decide)
    rw [FatFs.fileAddress_of_lt hk₂] at hi
    rw [FatFs.fileAddress_of_lt hl₂] at hj
    have heq := Option.some.inj (hi.trans hj.symm)
    cases i <;> cases j
    · exact ⟨rfl, Nat.add_left_cancel heq⟩
    · have heq : 4 + k = 6 + l := heq
      omega
    · have heq : 6 + k = 4 + l := heq
      omega
    · exact ⟨rfl, Nat.add_left_cancel heq⟩

end Files

end Iposix.Fs
