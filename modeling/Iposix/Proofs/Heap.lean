import Iposix.Lib.Links
import Iposix.Lib.Tiling
import Iposix.Mm.Splitted

/-!
# The kernel heap in memory

`Heap m first L bound` relates the memory to the blocks it describes: the
blocks with their headers tile `[first, bound)`, and the headers are linked in
the order of the list. The operations of the allocator replace a stretch of
the list by another one over the same range; `Heap.replace` says what a write
has to leave alone for that, and each operation below is an instance of it.

All of them may also write the four bytes from address 4 on, where a store to
the `previous` field behind a null pointer lands. The heap lies above.
-/

namespace Iposix.Mm

open Iposix.Lib FuStructure

/-- A header and the memory it describes. -/
structure Block where
  addr : Nat
  size : Nat
  free : Bool

/-- The end of the memory described. -/
def Block.stop (x : Block) : Nat := x.addr + 24 + x.size

/-- The memory holds the header of `x`, linked to `p` and `n`. -/
structure Header (m : Nat → UInt8) (x : Block) (p n : Nat) : Prop where
  free : FuStructure.free m x.addr = x.free
  previous : FuStructure.previous m x.addr = p
  next : FuStructure.next m x.addr = n
  allocatedMemory : FuStructure.allocatedMemory m x.addr = x.addr + 24
  size : FuStructure.size m x.addr = x.size

theorem Header.congr {m m' : Nat → UInt8} {x : Block} {p n : Nat}
    (h : Header m x p n)
    (heq : ∀ j, x.addr ≤ j → j < x.addr + 24 → m' j = m j) :
    Header m' x p n := by
  have hload : ∀ w d, d + w ≤ 24 →
      load w m' (x.addr + d) = load w m (x.addr + d) := by
    intro w d hd
    exact load_congr fun j h₁ h₂ => heq j (by omega) (by omega)
  refine ⟨?_, ?_, ?_, ?_, ?_⟩
  · rw [← h.free, FuStructure.free, FuStructure.free]
    exact congrArg (· != 0) (hload 1 0 (by omega))
  · exact (hload 4 4 (by omega)).trans h.previous
  · exact (hload 4 8 (by omega)).trans h.next
  · exact (hload 4 12 (by omega)).trans h.allocatedMemory
  · exact (hload 8 16 (by omega)).trans h.size

section
variable {m : Nat → UInt8} {x : Block} {p n : Nat} (h : Header m x p n)

include h

theorem header_setFree (v : Bool) :
    Header (setFree m x.addr v) { x with free := v } p n := by
  obtain ⟨_, hp, hn, ha, hs⟩ := h
  simp only [previous, next, allocatedMemory, size] at hp hn ha hs
  refine ⟨?_, ?_, ?_, ?_, ?_⟩
  · simp only [FuStructure.free, setFree, load_store]
    cases v <;> rfl
  all_goals
    simp (disch := omega) only [setFree, previous, next, allocatedMemory,
      size, load_store_of_disjoint, hp, hn, ha, hs]

theorem header_setPrevious {q : Nat} (hq : q < 4294967296) :
    Header (setPrevious m x.addr q) x q n := by
  obtain ⟨hf, _, hn, ha, hs⟩ := h
  simp only [FuStructure.free, next, allocatedMemory, size] at hf hn ha hs
  refine ⟨?_, ?_, ?_, ?_, ?_⟩ <;>
    simp (disch := omega) only [setPrevious, FuStructure.free,
      previous, next, allocatedMemory, size, load_store,
      load_store_of_disjoint, Nat.mod_eq_of_lt, hf, hn, ha, hs]

theorem header_setNext {q : Nat} (hq : q < 4294967296) :
    Header (setNext m x.addr q) x p q := by
  obtain ⟨hf, hp, _, ha, hs⟩ := h
  simp only [FuStructure.free, previous, allocatedMemory, size] at hf hp ha hs
  refine ⟨?_, ?_, ?_, ?_, ?_⟩ <;>
    simp (disch := omega) only [setNext, FuStructure.free,
      previous, next, allocatedMemory, size, load_store,
      load_store_of_disjoint, Nat.mod_eq_of_lt, hf, hp, ha, hs]

theorem header_setSize {v : Nat} (hv : v < 18446744073709551616) :
    Header (setSize m x.addr v) { x with size := v } p n := by
  obtain ⟨hf, hp, hn, ha, _⟩ := h
  simp only [FuStructure.free, previous, next, allocatedMemory] at hf hp hn ha
  refine ⟨?_, ?_, ?_, ?_, ?_⟩ <;>
    simp (disch := omega) only [setSize, FuStructure.free,
      previous, next, allocatedMemory, size, load_store,
      load_store_of_disjoint, Nat.mod_eq_of_lt, hf, hp, hn, ha]

end

/-- A structure filled in field by field. -/
def create (m : Nat → UInt8) (x : Block) (p n : Nat) : Nat → UInt8 :=
  setSize (setAllocatedMemory (setNext (setPrevious (setFree m x.addr x.free)
    x.addr p) x.addr n) x.addr (x.addr + 24)) x.addr x.size

theorem header_create (m : Nat → UInt8) {x : Block} {p n : Nat}
    (hx : x.stop < 4294967296) (hp : p < 4294967296) (hn : n < 4294967296) :
    Header (create m x p n) x p n := by
  have hstop : x.stop = x.addr + 24 + x.size := rfl
  refine ⟨?_, ?_, ?_, ?_, ?_⟩
  · simp (disch := omega) only [create, FuStructure.free, setFree,
      setPrevious, setNext, setAllocatedMemory, setSize, load_store,
      load_store_of_disjoint]
    cases x.free <;> rfl
  all_goals
    simp (disch := omega) only [create, setFree, setPrevious, setNext,
      setAllocatedMemory, setSize, previous, next, allocatedMemory, size,
      load_store, load_store_of_disjoint, Nat.mod_eq_of_lt]

theorem create_apply {m : Nat → UInt8} {x : Block} {p n j : Nat}
    (h : j < x.addr ∨ x.addr + 24 ≤ j) : create m x p n j = m j := by
  simp (disch := omega) only [create, setFree, setPrevious, setNext,
    setAllocatedMemory, setSize, store_apply_of_disjoint]

/-- The block that is left when the front of `x` is given away. -/
def Block.rest (x : Block) (request : Nat) : Block :=
  ⟨x.addr + 24 + request, x.size - request - 24, true⟩

section
variable {m : Nat → UInt8} {x : Block} {p n request : Nat} (h : Header m x p n)
  (hsize : request + 24 < x.size) (hstop : x.stop < 4294967296)

include h hsize hstop

/-- Half way through the split the block behind is still found. -/
theorem next_halfCut :
    next (setPrevious (setFree (setSize m x.addr request) (x.addr + 24 + request)
      true) (x.addr + 24 + request) x.addr) x.addr = n := by
  have hxstop : x.stop = x.addr + 24 + x.size := rfl
  have hsized := header_setSize h (v := request) (by omega)
  refine (hsized.congr fun j _ hj => ?_).next
  have hj' : j < x.addr + 24 := hj
  simp (disch := omega) only [setPrevious, setFree, store_apply_of_disjoint]

theorem next_cut :
    next (create (setSize m x.addr request) (x.rest request) x.addr n) x.addr =
      n := by
  have hxstop : x.stop = x.addr + 24 + x.size := rfl
  have hz : (x.rest request).addr = x.addr + 24 + request := rfl
  have hsized := header_setSize h (v := request) (by omega)
  refine (hsized.congr fun j _ hj => create_apply (.inl ?_)).next
  have hj' : j < x.addr + 24 := hj
  omega

/-- The stores of the split, in the order they are made. -/
theorem split_eq :
    Splitted.split m x.addr request =
      setNext (setPrevious (create (setSize m x.addr request)
        (x.rest request) x.addr n) n (x.rest request).addr) x.addr
        (x.rest request).addr := by
  have hxstop : x.stop = x.addr + 24 + x.size := rfl
  have hsized := header_setSize h (v := request) (by omega)
  have hsum : u32 ((x.addr + 24 : Nat) + request) = x.addr + 24 + request :=
    u32_of_lt (n := x.addr + 24 + request) (by omega)
  have hsum' : u32 ((x.addr + 24 + request : Nat) + (24 : Nat)) =
      x.addr + 24 + request + 24 :=
    u32_of_lt (n := x.addr + 24 + request + 24) (by omega)
  have halloc : allocatedMemory (setSize m x.addr request) x.addr =
      x.addr + 24 := hsized.allocatedMemory
  simp only [Splitted.split, SIZEOF, h.size, if_pos (by omega :
    x.size - request > 24), halloc, hsum, hsum', next_halfCut h hsize hstop]
  show setNext (setPrevious (create (setSize m x.addr request)
    (x.rest request) x.addr n) (next (create (setSize m x.addr request)
    (x.rest request) x.addr n) x.addr) (x.rest request).addr) x.addr
    (x.rest request).addr = _
  rw [next_cut h hsize hstop]

end

/-- `m'` differs from `m` only in the null page and from `a` on. -/
def Below (a : Nat) (m m' : Nat → UInt8) : Prop :=
  ∀ j, 8 ≤ j → j < a → m' j = m j

theorem Below.trans {a b : Nat} {m m' m'' : Nat → UInt8} (hab : a ≤ b)
    (h : Below a m m') (h' : Below b m' m'') : Below a m m'' := by
  intro j h₈ hj
  rw [h' j h₈ (by omega), h j h₈ hj]

/-- The list of blocks laid out from `first` to `bound`. -/
structure Heap (m : Nat → UInt8) (first : Nat) (L : List Block)
    (bound : Nat) : Prop where
  tiles : Tiles Block.addr Block.stop first L bound
  links : Links Block.addr (Header m) 0 L 0
  low : 8 ≤ first
  high : bound < 4294967296

namespace Heap

variable {m m' : Nat → UInt8} {first bound : Nat}

theorem firstAddr_eq {L : List Block} {z n : Nat}
    (h : Tiles Block.addr Block.stop z L bound) (hne : L ≠ []) :
    firstAddr Block.addr n L = z := by
  cases L with
  | nil => exact absurd rfl hne
  | cons x L => exact h.1

/-- Whatever leaves the heap and the memory outside the null page alone keeps
the headers; so do writes into the memory the blocks describe. -/
theorem congr {L : List Block} (h : Heap m first L bound)
    (heq : ∀ x, x ∈ L → ∀ j, x.addr ≤ j → j < x.addr + 24 → m' j = m j) :
    Heap m' first L bound :=
  ⟨h.tiles, h.links.mono fun x hx _ _ hnode => hnode.congr (heq x hx),
    h.low, h.high⟩

/-- A stretch of the list gives way to another one over the same range. -/
theorem replace {l k : List Block} (old new : List Block)
    (h : Heap m first (l ++ (old ++ k)) bound) (hold : old ≠ [])
    (hnew : new ≠ [])
    (htiles : ∀ z, Tiles Block.addr Block.stop (firstAddr Block.addr 0 old) old z →
      Tiles Block.addr Block.stop (firstAddr Block.addr 0 old) new z)
    (hbelow : Below (firstAddr Block.addr 0 old) m m')
    (hlinks : Links Block.addr (Header m') (lastAddr Block.addr 0 l) new
      (firstAddr Block.addr 0 k))
    (hrest : Links Block.addr (Header m')
      (lastAddr Block.addr (lastAddr Block.addr 0 l) new) k 0) :
    Heap m' first (l ++ (new ++ k)) bound := by
  obtain ⟨y, hl, hmid⟩ := Tiles.append.1 h.tiles
  obtain ⟨z, ho, hk⟩ := Tiles.append.1 hmid
  have hy : firstAddr Block.addr 0 old = y := firstAddr_eq ho hold
  rw [hy] at htiles hbelow
  have hn := htiles z ho
  refine ⟨Tiles.append.2 ⟨y, hl, Tiles.append.2 ⟨z, hn, hk⟩⟩, ?_, h.low,
    h.high⟩
  refine Links.append.2 ⟨?_, Links.append.2 ⟨hlinks, hrest⟩⟩
  have hlinked := (Links.append.1 h.links).1
  rw [firstAddr_append, firstAddr_eq ho hold] at hlinked
  rw [firstAddr_append, firstAddr_eq hn hnew]
  refine hlinked.mono fun x hx p n hnode => hnode.congr fun j h₁ h₂ => ?_
  have hb := hl.bounds hx
  have hlow := h.low
  have hstop : x.stop = x.addr + 24 + x.size := rfl
  exact hbelow j (by omega) (by omega)

/-- Telling the first block of a list what is in front of it. Where there is
no block the store goes to the null page. -/
theorem links_setPrevious {k : List Block} {p z : Nat} (q : Nat)
    (hk : Tiles Block.addr Block.stop z k bound) (hz : bound < 4294967296)
    (hq : q < z) (h : Links Block.addr (Header m) p k 0) :
    Links Block.addr
      (Header (setPrevious m (firstAddr Block.addr 0 k) q)) q k 0 := by
  cases k with
  | nil => trivial
  | cons x k =>
      obtain ⟨hx, hrest⟩ := h
      obtain ⟨hlo, hlt, hk⟩ := hk
      have hb := hk.le
      refine ⟨header_setPrevious hx (by omega), hrest.mono fun y hy p n hnode =>
        hnode.congr fun j h₁ h₂ => ?_⟩
      have hstop : x.stop = x.addr + 24 + x.size := rfl
      have hy' := hk.bounds hy
      exact store_apply_of_disjoint (by simp only [firstAddr]; omega)

/-- Where that store lands. -/
theorem setPrevious_below {k : List Block} {q z : Nat}
    (hk : Tiles Block.addr Block.stop z k bound) :
    Below z m (setPrevious m (firstAddr Block.addr 0 k) q) := by
  intro j h₁ h₂
  refine store_apply_of_disjoint ?_
  cases k with
  | nil => simp only [firstAddr]; omega
  | cons x k =>
      have hx : x.addr = z := hk.1
      simp only [firstAddr]
      omega

/-! ## The operations -/

/-- Marking a block free or used. -/
theorem mark {l k : List Block} {x : Block}
    (h : Heap m first (l ++ x :: k) bound) (v : Bool) :
    Heap (setFree m x.addr v) first (l ++ { x with free := v } :: k) bound ∧
      Below x.addr m (setFree m x.addr v) := by
  obtain ⟨_, hx, hrest⟩ := Links.cut.1 h.links
  obtain ⟨_, hlt, hk⟩ := Tiles.cut.1 h.tiles
  have hbelow : Below x.addr m (setFree m x.addr v) :=
    fun j _ hj => store_apply_of_disjoint (.inl hj)
  refine ⟨h.replace [x] [{ x with free := v }] (List.cons_ne_nil _ _)
    (List.cons_ne_nil _ _) (fun z hz => hz) hbelow
    ⟨header_setFree hx v, trivial⟩ ?_, hbelow⟩
  refine Links.mono hrest fun y hy p n hnode => hnode.congr fun j h₁ _ => ?_
  have hstop : x.stop = x.addr + 24 + x.size := rfl
  have hy' := hk.bounds hy
  exact store_apply_of_disjoint (.inr (by omega))

/-- Taking in the block behind. -/
theorem absorb {l k : List Block} {x y : Block}
    (h : Heap m first (l ++ x :: y :: k) bound) :
    Heap (Splitted.merge m x.addr y.addr) first
      (l ++ { x with size := x.size + 24 + y.size } :: k) bound ∧
      Below x.addr m (Splitted.merge m x.addr y.addr) := by
  obtain ⟨_, hx, hy, hrest⟩ := Links.cut.1 h.links
  obtain ⟨_, hlt, hxy, hlt', hk⟩ := Tiles.cut.1 h.tiles
  have hxstop : x.stop = x.addr + 24 + x.size := rfl
  have hystop : y.stop = y.addr + 24 + y.size := rfl
  have hhigh := h.high
  have hlow := h.low
  have hb := hk.le
  have hfirst : first ≤ x.addr :=
    (h.tiles.bounds (List.mem_append_right l List.mem_cons_self)).1
  have hn : firstAddr Block.addr 0 k < 4294967296 := by
    rw [← hy.next]
    exact load_lt m 4 _
  -- the stores into the structure of `x`, one after the other
  have h₁ := header_setSize hx (v := x.size + 24) (by omega)
  have hy₁ : Header (setSize m x.addr (x.size + 24)) y x.addr
      (firstAddr Block.addr 0 k) :=
    hy.congr fun j hj _ => store_apply_of_disjoint (.inr (by omega))
  have h₂ := header_setSize h₁ (v := x.size + 24 + y.size) (by omega)
  have h₃ := header_setNext h₂ hn
  have hmerge := Splitted.merge.eq_def m x.addr y.addr
  simp only [SIZEOF, hy.next, hx.size, h₁.size, hy₁.size] at hmerge
  dsimp only at h₃
  have hout : ∀ j, j < x.addr ∨ x.addr + 24 ≤ j →
      setNext (setSize (setSize m x.addr (x.size + 24)) x.addr
        (x.size + 24 + y.size)) x.addr (firstAddr Block.addr 0 k) j = m j := by
    intro j hj
    simp (disch := omega) only [setNext, setSize, store_apply_of_disjoint]
  generalize setNext (setSize (setSize m x.addr (x.size + 24)) x.addr
    (x.size + 24 + y.size)) x.addr (firstAddr Block.addr 0 k) = m₃ at *
  have hk₃ : Links Block.addr (Header m₃) y.addr k 0 := by
    refine hrest.mono fun z hz p n hnode => hnode.congr fun j hj _ => ?_
    have hz' := hk.bounds hz
    exact hout j (.inr (by omega))
  -- whether or not there is a block behind, it is told about `x`
  have htold : ∀ j, 8 ≤ j → j < y.stop →
      Splitted.merge m x.addr y.addr j = m₃ j := by
    intro j hj hj'
    rw [hmerge]
    split
    · exact setPrevious_below hk j hj hj'
    · rfl
  have hlinks : Links Block.addr (Header (Splitted.merge m x.addr y.addr))
      x.addr k 0 := by
    cases k with
    | nil => trivial
    | cons z k =>
        have hz : firstAddr Block.addr 0 (z :: k) ≠ 0 := by
          have hzy : z.addr = y.stop := hk.1
          show z.addr ≠ 0
          omega
        rw [hmerge, if_pos hz]
        exact links_setPrevious x.addr hk hhigh (by omega) hk₃
  have hbelow : Below x.addr m (Splitted.merge m x.addr y.addr) := by
    intro j h₈ hj
    rw [htold j h₈ (by omega)]
    exact hout j (.inl hj)
  refine ⟨h.replace [x, y] [{ x with size := x.size + 24 + y.size }]
    (List.cons_ne_nil _ _) (List.cons_ne_nil _ _) ?_ hbelow
    ⟨h₃.congr fun j hj hj' => ?_, trivial⟩ hlinks, hbelow⟩
  · intro z ⟨_, _, _, _, hz⟩
    refine ⟨rfl, ?_, ?_⟩
    · show x.addr < x.addr + 24 + (x.size + 24 + y.size)
      omega
    · have hzy : y.stop = z := hz
      show x.addr + 24 + (x.size + 24 + y.size) = z
      omega
  · have h₁' : x.addr ≤ j := hj
    have h₂' : j < x.addr + 24 := hj'
    exact htold j (by omega) (by omega)

/-- Cutting the rest off a block that is larger than needed. -/
theorem carve {l k : List Block} {x : Block} (request : Nat)
    (h : Heap m first (l ++ x :: k) bound) (hsize : request + 24 < x.size) :
    Heap (Splitted.split m x.addr request) first
      (l ++ { x with size := request } :: x.rest request :: k) bound ∧
      Below x.addr m (Splitted.split m x.addr request) := by
  obtain ⟨_, hx, hrest⟩ := Links.cut.1 h.links
  obtain ⟨_, hlt, hk⟩ := Tiles.cut.1 h.tiles
  have hxstop : x.stop = x.addr + 24 + x.size := rfl
  have hhigh := h.high
  have hlow := h.low
  have hb := hk.le
  have hfirst : first ≤ x.addr :=
    (h.tiles.bounds (List.mem_append_right l List.mem_cons_self)).1
  have hz : (x.rest request).addr = x.addr + 24 + request := rfl
  have hzstop : (x.rest request).stop = x.stop := by
    show x.addr + 24 + request + 24 + (x.size - request - 24) = x.stop
    omega
  have hn : firstAddr Block.addr 0 k < 4294967296 := by
    rw [← hx.next]
    exact load_lt m 4 _
  -- the two structures, before the block behind is told
  have hsized := header_setSize hx (v := request) (by omega)
  have hx₁ : Header (create (setSize m x.addr request) (x.rest request) x.addr
      (firstAddr Block.addr 0 k)) { x with size := request } _ _ :=
    hsized.congr fun j _ hj => create_apply (.inl (by
      have hj' : j < x.addr + 24 := hj
      omega))
  have hz₁ : Header (create (setSize m x.addr request) (x.rest request) x.addr
      (firstAddr Block.addr 0 k)) (x.rest request) _ _ :=
    header_create _ (by omega) (by omega) hn
  have hout : ∀ j, j < x.addr ∨ x.stop ≤ j →
      create (setSize m x.addr request) (x.rest request) x.addr
        (firstAddr Block.addr 0 k) j = m j := by
    intro j hj
    rw [create_apply (by omega)]
    exact store_apply_of_disjoint (by omega)
  rw [split_eq hx hsize (by omega)]
  generalize create (setSize m x.addr request) (x.rest request) x.addr
    (firstAddr Block.addr 0 k) = m₁ at *
  have hk₁ : Links Block.addr (Header m₁) x.addr k 0 := by
    refine hrest.mono fun y hy p n hnode => hnode.congr fun j hj _ => ?_
    have hy' := hk.bounds hy
    exact hout j (.inr (by omega))
  have hk₂ := links_setPrevious (x.rest request).addr hk hhigh (by omega) hk₁
  have hx₂ : Header (setPrevious m₁ (firstAddr Block.addr 0 k)
      (x.rest request).addr) { x with size := request }
      (lastAddr Block.addr 0 l) (firstAddr Block.addr 0 k) := by
    refine hx₁.congr fun j hj hj' => ?_
    have h₁ : x.addr ≤ j := hj
    have h₂ : j < x.addr + 24 := hj'
    exact setPrevious_below hk j (by omega) (by omega)
  have hz₂ : Header (setPrevious m₁ (firstAddr Block.addr 0 k)
      (x.rest request).addr) (x.rest request) _ _ :=
    hz₁.congr fun j _ _ => setPrevious_below hk j (by omega) (by omega)
  have hout₂ : ∀ j, 8 ≤ j → j < x.addr → setPrevious m₁
      (firstAddr Block.addr 0 k) (x.rest request).addr j = m j := by
    intro j h₈ hj
    rw [setPrevious_below hk j h₈ (by omega)]
    exact hout j (.inl hj)
  generalize setPrevious m₁ (firstAddr Block.addr 0 k)
    (x.rest request).addr = m₂ at *
  -- at last the link from the block that was cut
  have hlink : ∀ j, j < x.addr ∨ x.addr + 24 ≤ j →
      setNext m₂ x.addr (x.rest request).addr j = m₂ j :=
    fun j hj => store_apply_of_disjoint (by omega)
  have hbelow : Below x.addr m (setNext m₂ x.addr (x.rest request).addr) := by
    intro j h₈ hj
    rw [hlink j (.inl hj)]
    exact hout₂ j h₈ hj
  refine ⟨h.replace [x] [{ x with size := request }, x.rest request]
    (List.cons_ne_nil _ _) (List.cons_ne_nil _ _) ?_ hbelow
    ⟨header_setNext hx₂ (by omega), hz₂.congr fun j hj _ =>
      hlink j (.inr (by omega)), trivial⟩
    (hk₂.mono fun y hy p n hnode => hnode.congr fun j hj _ => ?_), hbelow⟩
  · intro z ⟨_, _, hzx⟩
    refine ⟨rfl, ?_, rfl, ?_, hzstop.trans hzx⟩
    · show x.addr < x.addr + 24 + request
      omega
    · show x.addr + 24 + request < (x.rest request).stop
      omega
  · have hy' := hk.bounds hy
    exact hlink j (.inr (by omega))

/-- A new block behind the last one. -/
theorem grow {L : List Block} {request : Nat} (h : Heap m first L bound)
    (hfits : bound + 24 + request < 4294967296) :
    Heap (Splitted.linkNew (firstAddr Block.addr 0 L)
        (create m ⟨bound, request, false⟩ (lastAddr Block.addr 0 L) 0)
        (lastAddr Block.addr 0 L) bound)
      first (L ++ [⟨bound, request, false⟩]) (bound + 24 + request) := by
  have htiles : Tiles Block.addr Block.stop bound [⟨bound, request, false⟩]
      (bound + 24 + request) := by
    refine ⟨rfl, ?_, rfl⟩
    show bound < bound + 24 + request
    omega
  have hnew : ∀ p, p < 4294967296 → Header (create m ⟨bound, request, false⟩
      p 0) ⟨bound, request, false⟩ p 0 :=
    fun p hp => header_create m hfits hp (by omega)
  refine ⟨Tiles.append.2 ⟨bound, h.tiles, htiles⟩, ?_, h.low, hfits⟩
  rcases List.eq_nil_or_concat L with rfl | ⟨l, w, rfl⟩
  · exact ⟨hnew 0 (by omega), trivial⟩
  · rw [List.concat_eq_append] at *
    obtain ⟨hl, hw, _⟩ := Links.cut.1 h.links
    obtain ⟨htl, hlt, hwb⟩ := Tiles.cut.1 h.tiles
    have hwstop : w.stop = w.addr + 24 + w.size := rfl
    have hwb' : w.stop = bound := hwb
    have hlast : lastAddr Block.addr 0 (l ++ [w]) = w.addr := by
      rw [lastAddr_append]
      rfl
    have hfirst : firstAddr Block.addr 0 (l ++ [w]) = first :=
      firstAddr_eq h.tiles (by simp)
    have hlow := h.low
    have hle := htl.le
    rw [hlast, hfirst, Splitted.linkNew, if_neg (by omega),
      if_pos (by omega), List.append_assoc]
    have hw₁ : Header (create m ⟨bound, request, false⟩ w.addr 0) w _ _ :=
      hw.congr fun j _ hj => create_apply (.inl (by dsimp only; omega))
    refine Links.append.2 ⟨hl.mono fun y hy p n hnode =>
      hnode.congr fun j _ hj => ?_, header_setNext hw₁ h.high,
      (hnew w.addr (by have := h.high; omega)).congr fun j hj _ => ?_, trivial⟩
    · have hy' := htl.bounds hy
      have hystop : y.stop = y.addr + 24 + y.size := rfl
      have hset : setNext (create m ⟨bound, request, false⟩ w.addr 0) w.addr
          bound j = create m ⟨bound, request, false⟩ w.addr 0 j :=
        store_apply_of_disjoint (by omega)
      rw [hset]
      exact create_apply (.inl (by dsimp only; omega))
    · have hj' : bound ≤ j := hj
      exact store_apply_of_disjoint (by omega)

end Heap

end Iposix.Mm
