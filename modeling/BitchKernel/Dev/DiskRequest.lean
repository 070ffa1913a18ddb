import BitchKernel.Dev.Disk

/-!
# What a transfer asks of the driver

`disk_read` and `disk_write` should keep every request inside the sectors of the
disk. They do so for a request that starts inside the disk. The subtraction that
cuts a request off at the end wraps for one that starts behind it, and its low
half is then taken as the count. `Disk.Fits` is the exact condition on the
arguments under which the request is confined.
-/

namespace BitchKernel

namespace Disk

/-- A request made for `count` bytes at `offect` stays inside the sectors of the
disk and asks for no more than `count` bytes, and for none at or behind the end
of the disk. -/
structure Confines (disk : Disk) (count offect : ℕ) (r : AtaRequest) : Prop where
  count_le : r.count ≤ count
  inside : ∀ k < r.count, disk.startSector * ataSectorSize ≤ r.offect + k ∧
    r.offect + k < (disk.startSector + disk.sectorCount) * ataSectorSize
  past_end : disk.sectorCount * ataSectorSize ≤ offect → r.count = 0

/-- When a request for `count` bytes at `offect` stays confined. The size of the
disk in bytes is reduced to 64 bits, as is the end of the request that the clamp
compares it with.

* A request the clamp lets through must be empty or lie inside the disk.
* A request that starts inside the disk and is clamped must be emptied or have
  an address of 64 bits.
* A request that starts behind the end is emptied when its distance to the end is
  a multiple of `2 ^ 32`; it also stays confined on a disk of `2 ^ 55` sectors or
  more, whose true end it does not reach, when the count left is no larger than
  `count`. -/
def Fits (disk : Disk) (count offect : ℕ) : Prop :=
  let size := disk.sectorCount * ataSectorSize
  let address := disk.startSector * ataSectorSize + offect
  if (count + offect) % 2 ^ 64 ≤ size % 2 ^ 64 then
    count = 0 ∨ (address < 2 ^ 64 ∧ offect + count ≤ size)
  else if offect ≤ size % 2 ^ 64 then
    offect = size % 2 ^ 64 ∨ address < 2 ^ 64
  else
    (offect - size % 2 ^ 64) % 2 ^ 32 = 0 ∨
      (2 ^ 64 ≤ size ∧ address < 2 ^ 64 ∧
        2 ^ 32 ≤ count + (offect - size % 2 ^ 64) % 2 ^ 32)

/-- On a disk that ends well below `2 ^ 64` bytes a request stays confined when it
starts inside the disk or at its end, or when it lies a multiple of 4 GiB behind
and does not wrap. -/
theorem fits_iff_of_size_le {disk : Disk} {count offect : ℕ} (hcount : count < 2 ^ 32)
    (hoffect : offect < 2 ^ 64)
    (hsize : (disk.startSector + disk.sectorCount) * ataSectorSize + 2 ^ 32 ≤ 2 ^ 64) :
    disk.Fits count offect ↔ offect ≤ disk.sectorCount * ataSectorSize ∨
      (count + offect < 2 ^ 64 ∧ (offect - disk.sectorCount * ataSectorSize) % 2 ^ 32 = 0) := by
  unfold Fits
  have hmod : disk.sectorCount * ataSectorSize % 2 ^ 64 = disk.sectorCount * ataSectorSize :=
    Nat.mod_eq_of_lt (by lia)
  dsimp only
  rw [hmod]
  split_ifs <;> lia

variable (disk : Disk) (count offect : ℕ)

theorem request_offect :
    (disk.request count offect).offect =
      (disk.startSector * ataSectorSize + offect) % 2 ^ 64 := by
  change add64 (mul64 _ _) _ = _
  rw [add64_eq, mul64_eq, Nat.mod_add_mod]

theorem request_count (hoffect : offect < 2 ^ 64) :
    (disk.request count offect).count =
      if (count + offect) % 2 ^ 64 ≤ disk.sectorCount * ataSectorSize % 2 ^ 64 then count
      else if offect ≤ disk.sectorCount * ataSectorSize % 2 ^ 64 then
        (disk.sectorCount * ataSectorSize % 2 ^ 64 - offect) % 2 ^ 32
      else
        (disk.sectorCount * ataSectorSize % 2 ^ 64 + 2 ^ 64 - offect) % 2 ^ 32 := by
  have hlt := Nat.mod_lt (disk.sectorCount * ataSectorSize) (Nat.two_pow_pos 64)
  change (if mul64 _ _ < add64 _ _ then sub64 (mul64 _ _) _ % _ else _) = _
  rw [add64_eq, mul64_eq]
  by_cases hfits : (count + offect) % 2 ^ 64 ≤ disk.sectorCount * ataSectorSize % 2 ^ 64
  · rw [if_neg (by omega), if_pos hfits]
  · rw [if_pos (by omega), if_neg hfits]
    by_cases hle : offect ≤ disk.sectorCount * ataSectorSize % 2 ^ 64
    · rw [if_pos hle, sub64_of_le hle hlt]
    · rw [if_neg hle, sub64_of_lt (by omega) (Nat.le_of_lt hoffect)]

theorem confines_request_iff (hoffect : offect < 2 ^ 64) :
    disk.Confines count offect (disk.request count offect) ↔
      (disk.request count offect).count ≤ count ∧
        ((disk.request count offect).count = 0 ∨
          (disk.startSector * ataSectorSize + offect < 2 ^ 64 ∧
            offect + (disk.request count offect).count ≤ disk.sectorCount * ataSectorSize)) := by
  have hr := disk.request_offect count offect
  constructor
  · rintro ⟨hle, hinside, -⟩
    refine ⟨hle, ?_⟩
    by_cases hzero : (disk.request count offect).count = 0
    · exact .inl hzero
    · have hfirst := hinside 0 (by omega)
      have hfinal := hinside ((disk.request count offect).count - 1) (by omega)
      rw [hr] at hfirst hfinal
      right
      lia
  · rintro ⟨hle, hinside⟩
    refine ⟨hle, ?_, ?_⟩
    · intro k hk
      rw [hr]
      lia
    · lia

theorem confines_request_iff_fits (hcount : count < 2 ^ 32) (hoffect : offect < 2 ^ 64) :
    disk.Confines count offect (disk.request count offect) ↔ disk.Fits count offect := by
  rw [disk.confines_request_iff count offect hoffect, disk.request_count count offect hoffect]
  unfold Fits
  dsimp only
  by_cases hfits : (count + offect) % 2 ^ 64 ≤ disk.sectorCount * ataSectorSize % 2 ^ 64
  · rw [if_pos hfits, if_pos hfits]
    lia
  · rw [if_neg hfits, if_neg hfits]
    by_cases hle : offect ≤ disk.sectorCount * ataSectorSize % 2 ^ 64
    · rw [if_pos hle, if_pos hle]
      lia
    · rw [if_neg hle, if_neg hle]
      lia

end Disk

/-- `disk_read` and `disk_write` keep their requests inside the disk exactly when
the disk is missing or the arguments fit it. -/
theorem disk_transfers_confined_iff {β : Type*} (ataRead ataWrite : AtaRequest → Option β)
    (s : Disks) (id : ℕ) {count offect : ℕ} (hcount : count < 2 ^ 32) (hoffect : offect < 2 ^ 64) :
    (∀ r ∈ (s.diskRead ataRead id count offect).2 ++ (s.diskWrite ataWrite id count offect).2,
        (s.mem (s.getDisk id)).Confines count offect r) ↔
      (s.getDisk id ≠ 0 → (s.mem (s.getDisk id)).Fits count offect) := by
  unfold Disks.diskRead Disks.diskWrite Disks.diskIo
  by_cases hid : s.getDisk id = 0
  · simp [hid]
  · rw [if_neg hid, if_neg hid]
    cases hdev : (s.mem (s.getDisk id)).devType with
    | diskAta =>
        rw [← Disk.confines_request_iff_fits _ _ _ hcount hoffect]
        simp [hid]

/-- On a disk of eight sectors a read of one sector may start at its last byte. -/
theorem disk_transfers_confined_iff_last_byte :
    let s : Disks := ⟨fun _ => ⟨0, .diskAta, 0, 0, 8, ⟨.fsRaw, 0⟩, 0, 0, 0, 0, 0⟩, 1, 0x1000, 0x1000⟩
    (∀ r ∈ (s.diskRead (fun _ => some ()) 0 512 4095).2 ++
        (s.diskWrite (fun _ => some ()) 0 512 4095).2,
        (s.mem (s.getDisk 0)).Confines 512 4095 r) ↔
      (s.getDisk 0 ≠ 0 → (s.mem (s.getDisk 0)).Fits 512 4095) :=
  disk_transfers_confined_iff _ _ _ 0 (by decide) (by decide)

/-- One byte behind the end of that disk the driver is asked for four gigabytes. -/
theorem disk_read_past_end :
    let s : Disks := ⟨fun _ => ⟨0, .diskAta, 0, 0, 8, ⟨.fsRaw, 0⟩, 0, 0, 0, 0, 0⟩, 1, 0x1000, 0x1000⟩
    ⟨0, 0xffffffff, 4097⟩ ∈ (s.diskRead (fun _ => some ()) 0 512 4097).2 ∧
      ¬ (s.mem (s.getDisk 0)).Confines 512 4097 ⟨0, 0xffffffff, 4097⟩ := by
  refine ⟨by with_unfolding_all decide, fun h => ?_⟩
  exact absurd h.count_le (by decide)

end BitchKernel
