import Iposix.Proofs.Placement
import Iposix.Proofs.Reset

/-!
# Taking a mapping back

A call of `add_virtual_memory` that fails has mapped nothing, and one that
succeeds changes the translation only of pages nothing was mapped at.
`remove_virtual_memory` clears the entry of one page, so when each of those
pages has been removed, in whatever order, every address is translated as it
was before the call; the tables made for them stay.
-/

namespace Iposix.Vm

open Iposix.Lib

variable {mm : PageManager} {M M' M₀ : Machine} {dm ptable n k : Nat}
  {dirs fs : List Nat}

/-- `remove_virtual_memory` of one page after the other, by page number. -/
def removePages (ptable : Nat) : List Nat → Machine → Machine
  | [], M => M
  | i :: pages, M =>
      removePages ptable pages (removeVirtualMemory M ptable (4096 * i)).2

/-- Only the pages `left` are translated otherwise than in `M₀`, where nothing
was mapped at them. -/
structure Unmapping (M₀ M : Machine) (dm : Nat) (dirs : List Nat)
    (ptable : Nat) (left : List Nat) : Prop where
  tables : Tables M dm dirs
  nodup : left.Nodup
  mapped : ∀ i, i ∈ left → 32768 ≤ i ∧ ∃ e, pteOf M.mem ptable i = some e
  before : ∀ i, i ∈ left → Unmapped M₀.mem ptable i
  others : ∀ v, 1024 * dir v + page v ∉ left →
    translate M.mem ptable v = translate M₀.mem ptable v

/-- Removing a page takes it off the list. -/
theorem Unmapping.remove {i : Nat} {left : List Nat}
    (h : Unmapping M₀ M dm dirs ptable (i :: left)) (ht : Tables M₀ dm dirs)
    (hp : ptable ∈ dirs) :
    Unmapping M₀ (removeVirtualMemory M ptable (4096 * i)).2 dm dirs ptable
      left := by
  obtain ⟨hlow, e, he⟩ := h.mapped i List.mem_cons_self
  have hbefore := h.before i List.mem_cons_self
  have hi := hbefore.1
  obtain ⟨hnot, hnodup⟩ := List.nodup_cons.1 h.nodup
  have hd : 32 ≤ i / 1024 := by omega
  have hd' : i / 1024 < 1024 := by omega
  have hlt : i % 1024 < 1024 := Nat.mod_lt _ (by decide)
  have hpres := (pteAt_some he).1
  have hremove := removeVirtualMemory_of_pteAt (v := 4096 * i) (e := e)
    (by rwa [dir_number hi, page_number])
  rw [dir_number hi, page_number] at hremove
  have hpte := h.tables.pteAt_write hp hd hd' hlt hpres
    { e with presence := false } ptable
  rw [hremove]
  have htables := h.tables.writeEntry hp hd hd' hlt hpres
    { e with presence := false }
  refine ⟨htables, hnodup, fun j hj => ?_,
    fun j hj => h.before j (List.mem_cons_of_mem i hj), fun v hv => ?_⟩
  · obtain ⟨hlow', e', he'⟩ := h.mapped j (List.mem_cons_of_mem i hj)
    have hj' := (h.before j (List.mem_cons_of_mem i hj)).1
    refine ⟨hlow', e', (hpte _ _ hp (by omega) (by omega)
      (Nat.mod_lt _ (by decide))).trans ((if_neg fun hall => hnot ?_).trans he')⟩
    have hij : j = i := by omega
    exact hij ▸ hj
  · by_cases hhere : 1024 * dir v + page v = i
    · -- the page removed: nothing was mapped there
      have hdir : dir v = i / 1024 := by
        have hplt := page_lt v
        omega
      have hpage : page v = i % 1024 := by
        have hplt := page_lt v
        omega
      have hwin : 32 ≤ dir v := by omega
      have hnone := ((ht.unmapped_iff hp hlow).1 hbefore).2
      rw [htables.translate_eq hp hwin, ht.translate_eq hp hwin, hdir, hpage]
      rw [pteOf] at hnone
      rw [hnone, hpte _ _ hp hd hd' hlt, if_pos ⟨rfl, rfl, rfl⟩]
      rfl
    · rw [← h.others v fun hmem => ?_]
      · refine h.tables.translate_same htables hp fun hwin => ?_
        refine (hpte _ _ hp hwin (dir_lt v) (page_lt v)).trans
          (if_neg fun hall => hhere ?_)
        omega
      · rcases List.mem_cons.1 hmem with heq | hmem
        · exact hhere heq
        · exact hv hmem

/-- When all of them have been removed every address is translated as in
`M₀`. -/
theorem Unmapping.removePages (ht : Tables M₀ dm dirs) (hp : ptable ∈ dirs) :
    ∀ (left : List Nat) {M : Machine}, Unmapping M₀ M dm dirs ptable left →
      ∀ v, translate (removePages ptable left M).mem ptable v =
        translate M₀.mem ptable v := by
  intro left
  induction left with
  | nil => intro M h v; exact h.others v (List.not_mem_nil)
  | cons i left ih => intro M h; exact ih (h.remove ht hp)

/-- The order does not matter. -/
theorem Unmapping.perm {left left' : List Nat}
    (h : Unmapping M₀ M dm dirs ptable left) (hperm : left'.Perm left) :
    Unmapping M₀ M dm dirs ptable left' :=
  ⟨h.tables, hperm.nodup_iff.2 h.nodup, fun i hi => h.mapped i (hperm.mem_iff.1 hi),
    fun i hi => h.before i (hperm.mem_iff.1 hi),
    fun v hv => h.others v fun hmem => hv (hperm.mem_iff.2 hmem)⟩

theorem MappedAt.unmapping (h : MappedAt M₀ M dm dirs ptable n k fs)
    (hp : ptable ∈ dirs) :
    Unmapping M₀ M dm dirs ptable (List.range' n k) := by
  have hlow := h.low
  have hhigh := h.high
  refine ⟨h.tables, List.nodup_range', fun i hi => ?_, fun i hi => ?_,
    fun v hv => h.others v fun hall => hv (List.mem_range'_1.2 hall)⟩
  · rw [List.mem_range'_1] at hi
    have hmaps := h.maps (i - n) (by omega)
    rw [Nat.add_sub_cancel' hi.1, h.tables.translate_number hp (by omega)
      (by omega)] at hmaps
    obtain ⟨e, he, _⟩ := Option.map_eq_some_iff.1 hmaps
    exact ⟨by omega, e, he⟩
  · rw [List.mem_range'_1] at hi
    have hfree := h.free (i - n) (by omega)
    rwa [Nat.add_sub_cancel' hi.1] at hfree

/-- What a call that succeeds has changed: where, and how it is undone. -/
structure Changed (M₀ M : Machine) (ptable : Nat) (pages : List Nat) : Prop where
  nodup : pages.Nodup
  only : ∀ w, w < 4294967296 → w / 4096 ∉ pages →
    getPhysAddress M.mem ptable w = getPhysAddress M₀.mem ptable w
  each : ∀ i, i ∈ pages → ∃ w, w < 4294967296 ∧ w / 4096 = i ∧
    getPhysAddress M.mem ptable w ≠ getPhysAddress M₀.mem ptable w
  before : ∀ w, w < 4294967296 → w / 4096 ∈ pages →
    getPhysAddress M₀.mem ptable w = 0
  undone : ∀ order, order.Perm pages → ∀ w, w < 4294967296 →
    getPhysAddress (removePages ptable order M).mem ptable w =
      getPhysAddress M₀.mem ptable w

theorem MappedAt.changed (h : MappedAt M₀ M dm dirs ptable n k fs)
    (ht : Tables M₀ dm dirs) (hp : ptable ∈ dirs) :
    Changed M₀ M ptable (List.range' n k) := by
  have hun := h.unmapping hp
  have hbefore : ∀ w, w < 4294967296 → w / 4096 ∈ List.range' n k →
      translate M₀.mem ptable w = none := by
    intro w hw hmem
    have hnone := hun.before _ hmem
    have hpage : 4096 * (w / 4096) / 4096 = w / 4096 := by omega
    have hsome : (translate M₀.mem ptable w).isSome = false := by
      rw [← translate_isSome hpage, hnone.2]
      rfl
    exact Option.isSome_eq_false_iff.1 hsome |> Option.isNone_iff_eq_none.1
  refine ⟨hun.nodup, fun w hw hno => ?_, fun i hi => ?_, fun w hw hmem => ?_,
    fun order hperm w _ => ?_⟩
  · rw [getPhysAddress_eq, getPhysAddress_eq, hun.others]
    rwa [number_eq hw]
  · obtain ⟨hlow, e, he⟩ := hun.mapped i hi
    have hi' := (hun.before i hi).1
    have hpage : (4096 * i + 1) / 4096 = i := by omega
    refine ⟨4096 * i + 1, by omega, hpage, ?_⟩
    have hfirst := hun.tables.translate_number hp hlow hi'
    rw [he] at hfirst
    rw [getPhysAddress_eq, translate_add hfirst (by rw [offset]; omega),
      getPhysAddress_eq, hbefore _ (by omega) (by rwa [hpage])]
    exact Nat.succ_ne_zero _
  · rw [getPhysAddress_eq, hbefore w hw hmem]
    rfl
  · rw [getPhysAddress_eq, getPhysAddress_eq,
      (hun.perm hperm).removePages ht hp order]

/-- Every call of `add_virtual_memory`: one that returns null changes no
translation, any other changes as many pages as it was given at most, and
removing them takes the call back. -/
theorem mapping_confined (hfresh : mm.Fresh) (ht : Tables M dm dirs)
    (hp : ptable ∈ dirs) (hfs : ∀ f, f ∈ fs → 4096 ∣ f ∧ f < 4294967296)
    (v : Nat)
    (hnull : Event.alloc true 0 ∉ (addVirtualMemory mm M ptable fs v).2.log) :
    ((addVirtualMemory mm M ptable fs v).1 = 0 → ∀ w, w < 4294967296 →
      getPhysAddress (addVirtualMemory mm M ptable fs v).2.mem ptable w =
        getPhysAddress M.mem ptable w) ∧
    ((addVirtualMemory mm M ptable fs v).1 ≠ 0 →
      ∃ pages, pages.length ≤ fs.length ∧
        Changed M (addVirtualMemory mm M ptable fs v).2 ptable pages) := by
  have hsame : (∀ w, translate (addVirtualMemory mm M ptable fs v).2.mem ptable
      w = translate M.mem ptable w) → ∀ w, w < 4294967296 →
      getPhysAddress (addVirtualMemory mm M ptable fs v).2.mem ptable w =
        getPhysAddress M.mem ptable w := fun h w _ => by
    rw [getPhysAddress_eq, getPhysAddress_eq, h]
  by_cases hne : fs.length = 0
  · rw [addVirtualMemory, if_pos hne]
    exact ⟨fun _ _ _ => rfl, fun hno => absurd rfl hno⟩
  by_cases hv : v = 0
  · subst hv
    rcases addVirtualMemory_any hfresh ht hp hfs hne hnull with
      ⟨hret, hall, _⟩ | ⟨s, hfirst, hret, hmapped⟩
    · exact ⟨fun _ => hsame hall, fun hno => absurd hret hno⟩
    · have hlow := hfirst.low_le
      have hret₀ : (addVirtualMemory mm M ptable fs 0).1 ≠ 0 := by
        rw [hret, normal]
        omega
      exact ⟨fun hzero => absurd hzero hret₀, fun _ =>
        ⟨_, Nat.le_of_eq List.length_range', hmapped.changed ht hp⟩⟩
  · rcases addVirtualMemory_at hfresh ht hp hfs hne hv hnull with
      ⟨hret, hall⟩ | ⟨hret, hmapped⟩
    · exact ⟨fun _ => hsame hall, fun hno => absurd hret hno⟩
    · refine ⟨fun hzero => absurd (hret.symm.trans hzero) hv, fun _ =>
        ⟨_, ?_, hmapped.changed ht hp⟩⟩
      rw [List.length_range']
      exact Nat.min_le_left _ _

/-- Three pages of the child, the first of them in the last entry of a table. -/
theorem mapping_confined_forkMachine :
    (addVirtualMemory counting forkMachine 12288 [409600, 425984, 413696]
        0x803FF000).1 = 0x803FF000 ∧
      ∃ pages : List Nat, pages.length ≤ [409600, 425984, 413696].length ∧
        Changed forkMachine
          (addVirtualMemory counting forkMachine 12288
            [409600, 425984, 413696] 0x803FF000).2 12288 pages := by
  have hret : (addVirtualMemory counting forkMachine 12288
      [409600, 425984, 413696] 0x803FF000).1 = 0x803FF000 := by
    decide +kernel
  have hne : (addVirtualMemory counting forkMachine 12288
      [409600, 425984, 413696] 0x803FF000).1 ≠ 0 := by
    rw [hret]
    decide
  have hfs : ∀ f, f ∈ [409600, 425984, 413696] → 4096 ∣ f ∧ f < 4294967296 := by
    decide
  exact ⟨hret, (mapping_confined counting_fresh forkMachine_spaces.toTables
    (by decide) hfs 0x803FF000 (by decide +kernel)).2 hne⟩

end Iposix.Vm
