import Mathlib.Algebra.Order.Group.Unbundled.Int
import Mathlib.Algebra.Order.Ring.Int
import Mathlib.Data.List.Sort
import Mathlib.Order.Bounds.Defs
import Nachos.Mp4.Disk

/-!
# The disk and its arm

`machine/disk.cc`. A request moves the data at once and schedules the interrupt that ends it, as far
ahead as the arm needs to seek the track and the disk to turn the sector past the head; a read of the
current track can be served from the track buffer. `Arm` says where the head is and when, and
`Latency` when a request should end.
-/

namespace Nachos.Devices
open Bytes
open Nachos.Mp4 (Sector sectorsPerTrack numTracks diskSectors)

def rotationTime : ℤ := 500
def seekTime : ℤ := 500

/-- A request that the disk has taken: when it was made, and when its interrupt is due. -/
structure Request where
  sector : ℤ
  writing : Bool
  made : ℤ
  due : ℤ

/-- The disk, the file behind it, the clock and the interrupts that are pending for the disk. -/
structure Disk where
  sectors : Mp4.Disk
  lastSector : ℤ
  bufferInit : ℤ
  active : Bool
  totalTicks : ℤ
  pending : List ℤ
  requests : List Request

/-- `Disk::ModuloDiff`. -/
def moduloDiff (to' from' : ℤ) : ℤ :=
  ((to'.tmod sectorsPerTrack - from'.tmod sectorsPerTrack) + sectorsPerTrack).tmod sectorsPerTrack

namespace Disk

/-- A new disk at the start of the machine. -/
def initial (sectors : Mp4.Disk) : Disk := ⟨sectors, 0, 0, false, 0, [], []⟩

/-- `Disk::TimeToSeek`: the time to the track, and from there to the next sector boundary. -/
def timeToSeek (d : Disk) (newSector : ℤ) : ℤ × ℤ :=
  let newTrack := newSector.tdiv sectorsPerTrack
  let oldTrack := d.lastSector.tdiv sectorsPerTrack
  let seek := |newTrack - oldTrack| * seekTime
  let past := (d.totalTicks + seek).tmod rotationTime
  (seek, if 0 < past then rotationTime - past else 0)

/-- `Disk::ComputeLatency`. -/
def computeLatency (d : Disk) (newSector : ℤ) (writing : Bool) : ℤ :=
  let (seek, rotation) := d.timeToSeek newSector
  let timeAfter := d.totalTicks + seek + rotation
  if writing = false ∧ seek = 0 ∧
      moduloDiff newSector (d.bufferInit.tdiv rotationTime) < (timeAfter - d.bufferInit).tdiv rotationTime then
    rotationTime
  else seek + (rotation + moduloDiff newSector (timeAfter.tdiv rotationTime) * rotationTime) + rotationTime

/-- `Disk::UpdateLast`. -/
def updateLast (d : Disk) (newSector : ℤ) : Disk :=
  let (seek, rotate) := d.timeToSeek newSector
  { d with
    bufferInit := if seek ≠ 0 then d.totalTicks + seek + rotate else d.bufferInit
    lastSector := newSector }

/-- What `ReadRequest` and `WriteRequest` do around the transfer: none if an `ASSERT` fails (that of `Schedule` is
`0 < ticks`), or if the time of the interrupt is no `int`. -/
def accept (d : Disk) (sectorNumber : ℤ) (writing : Bool) : Option Disk :=
  let ticks := d.computeLatency sectorNumber writing
  if d.active then none
  else if 0 ≤ sectorNumber ∧ sectorNumber < diskSectors ∧ 0 < ticks ∧ d.totalTicks + ticks < 2 ^ 31 then
    some { d.updateLast sectorNumber with
      active := true
      pending := d.pending.orderedInsert (· ≤ ·) (d.totalTicks + ticks)
      requests := d.requests ++ [⟨sectorNumber, writing, d.totalTicks, d.totalTicks + ticks⟩] }
  else none

/-- `Disk::ReadRequest`. -/
def readRequest (d : Disk) (sectorNumber : Word) : Option (Disk × Sector) :=
  (d.accept sectorNumber.toInt false).map fun d' => (d', d.sectors sectorNumber.toNat)

/-- `Disk::WriteRequest`. -/
def writeRequest (d : Disk) (sectorNumber : Word) (data : Sector) : Option Disk :=
  (d.accept sectorNumber.toInt true).map fun d' => { d' with sectors := Function.update d.sectors sectorNumber.toNat data }

/-- The interrupt is taken when it is due; `Disk::CallBack` up to the call of `callWhenDone`. -/
def callBack (d : Disk) : Option Disk :=
  match d.pending with
  | [] => none
  | when :: later => if when ≤ d.totalTicks then some { d with pending := later, active := false } else none

/-- The machine's time goes on. -/
def tick (d : Disk) (n : ℕ) : Option Disk :=
  if d.totalTicks + n < 2 ^ 31 then some { d with totalTicks := d.totalTicks + n } else none

end Disk

/-! ## The arm -/

/-- The track that the head is on, and the time from which it has been there. -/
structure Arm where
  track : ℤ
  since : ℤ

namespace Arm

/-- The arm passes one track in `SeekTime`. -/
def move (a : Arm) (r : Request) : Arm :=
  if r.sector / sectorsPerTrack = a.track then a
  else ⟨r.sector / sectorsPerTrack, r.made + |r.sector / sectorsPerTrack - a.track| * seekTime⟩

/-- The arm after requests; it starts on track 0. -/
def after (requests : List Request) : Arm := requests.foldl move ⟨0, 0⟩

theorem after_append (requests : List Request) (r : Request) : after (requests ++ [r]) = (after requests).move r := by
  rw [after, List.foldl_append]
  rfl

/-- The sector begins to pass under the head at time `p`; one sector passes in `RotationTime`. -/
structure Passes (a : Arm) (sector p : ℤ) : Prop where
  there : a.since ≤ p
  boundary : p % rotationTime = 0
  under : p / rotationTime % sectorsPerTrack = sector % sectorsPerTrack

end Arm

/-- The sector of a read has begun to pass since the arm is on its track, and is in the track buffer. -/
def Arm.Buffered (a : Arm) (r : Request) : Prop := r.writing = false ∧ ∃ p, a.Passes r.sector p ∧ p < r.made

/-- When a request should end: from the track buffer after the time of the transfer, and otherwise when the sector
has passed under the head, for the first time since the request was made. -/
structure Latency (a : Arm) (r : Request) : Prop where
  buffered : a.Buffered r → r.due = r.made + rotationTime
  passed : ¬ a.Buffered r → IsLeast {p | a.Passes r.sector p ∧ r.made ≤ p} (r.due - rotationTime)

/-- The interrupt comes later than the request. -/
theorem Latency.later {a : Arm} {r : Request} (h : Latency a r) : r.made < r.due := by
  have rotation : rotationTime = 500 := rfl
  by_cases hit : a.Buffered r
  · have due := h.buffered hit
    omega
  · obtain ⟨⟨-, made⟩, -⟩ := h.passed hit
    omega

/-! ## The arithmetic of the head -/

section arithmetic

variable {sector t : ℤ}

theorem moduloDiff_eq (h : 0 ≤ sector) (ht : 0 ≤ t) :
    moduloDiff sector t = (sector % 16384 - t % 16384 + 16384) % 16384 := by
  have track : (sectorsPerTrack : ℤ) = 16384 := rfl
  rw [moduloDiff, track, Int.tmod_eq_emod_of_nonneg h, Int.tmod_eq_emod_of_nonneg ht, Int.tmod_eq_emod_of_nonneg (by omega)]

/-- The first pass of a sector from a boundary on. -/
theorem first_pass {a : Arm} (h : 0 ≤ sector) (ht : 0 ≤ t) (boundary : t % 500 = 0) (there : a.since ≤ t) :
    IsLeast {p | a.Passes sector p ∧ t ≤ p} (t + moduloDiff sector (t / 500) * 500) := by
  have nonneg : 0 ≤ t / 500 := by omega
  rw [moduloDiff_eq h nonneg]
  have track : (sectorsPerTrack : ℤ) = 16384 := rfl
  have rotation : rotationTime = 500 := rfl
  constructor
  · refine ⟨⟨?_, ?_, ?_⟩, ?_⟩
    · omega
    · rw [rotation]
      omega
    · rw [rotation, track]
      omega
    · omega
  · rintro p ⟨⟨-, edge, under⟩, later⟩
    rw [rotation] at edge
    rw [rotation, track] at under
    omega

end arithmetic

/-! ## Requests end in time -/

/-- The disk between two requests, or with one under way: the registers say where the arm is. -/
structure Disk.Sound (d : Disk) : Prop where
  clock : 0 ≤ d.totalTicks
  last : 0 ≤ d.lastSector
  track : d.lastSector / sectorsPerTrack = (Arm.after d.requests).track
  since : 0 ≤ (Arm.after d.requests).since ∧ (Arm.after d.requests).since ≤ d.bufferInit ∧
    d.bufferInit < (Arm.after d.requests).since + rotationTime
  boundary : d.bufferInit % rotationTime = 0

namespace Disk

variable {d d' : Disk} {sector : ℤ} {writing : Bool}

theorem Sound.initial (sectors : Mp4.Disk) : (initial sectors).Sound where
  clock := le_rfl
  last := le_rfl
  track := rfl
  since := ⟨le_rfl, le_rfl, show (0 : ℤ) < 0 + 500 by decide⟩
  boundary := rfl

/-- How far the head has to go, in terms of the arm. -/
theorem Sound.timeToSeek (h : d.Sound) (inside : 0 ≤ sector) :
    d.timeToSeek sector = (|sector / 16384 - (Arm.after d.requests).track| * 500,
      (- (d.totalTicks + |sector / 16384 - (Arm.after d.requests).track| * 500)) % 500) := by
  have track : (sectorsPerTrack : ℤ) = 16384 := rfl
  have rotation : rotationTime = 500 := rfl
  have seek : seekTime = 500 := rfl
  have now := h.clock
  have far := abs_nonneg (sector / 16384 - (Arm.after d.requests).track)
  have same := h.track
  rw [track] at same
  simp only [Disk.timeToSeek, track, rotation, seek, Int.tdiv_eq_ediv_of_nonneg inside, Int.tdiv_eq_ediv_of_nonneg h.last, same,
    Prod.mk.injEq, true_and]
  rw [Int.tmod_eq_emod_of_nonneg (by omega)]
  split <;> omega

/-- The head is at a sector boundary at time `t`, the first since the request and since the arm is there. -/
theorem first_since (a : Arm) {t : ℤ} (now : ℤ) (inside : 0 ≤ sector) (ht : 0 ≤ t) (boundary : t % 500 = 0) (there : a.since ≤ t) (later : now ≤ t)
    (first : t < now + 500 ∨ t < a.since + 500) :
    IsLeast {p | a.Passes sector p ∧ now ≤ p} (t + moduloDiff sector (t / 500) * 500) := by
  obtain ⟨⟨pass, here⟩, least⟩ := first_pass inside ht boundary there
  refine ⟨⟨pass, by omega⟩, fun p ⟨other, made⟩ => least ⟨other, ?_⟩⟩
  have edge : p % 500 = 0 := other.boundary
  have arrived := other.there
  omega

/-- The track of the sector is the one the arm is on. -/
theorem Sound.latency_here (h : d.Sound) (inside : 0 ≤ sector) (ready : d.bufferInit ≤ d.totalTicks)
    (here : sector / 16384 = (Arm.after d.requests).track) :
    Latency (Arm.after d.requests) ⟨sector, writing, d.totalTicks, d.totalTicks + d.computeLatency sector writing⟩ := by
  obtain ⟨nonneg, first, close⟩ := h.since
  have edge : d.bufferInit % 500 = 0 := h.boundary
  have now := h.clock
  have rotation : rotationTime = 500 := rfl
  rw [rotation] at close
  have seek : d.timeToSeek sector = (0, (-d.totalTicks) % 500) := by
    rw [h.timeToSeek inside, here, sub_self, abs_zero, zero_mul, add_zero]
  have early := first_pass (a := Arm.after d.requests) inside (by omega) edge first
  have late := first_since (Arm.after d.requests) (t := d.totalTicks + (-d.totalTicks) % 500) d.totalTicks inside (by omega) (by omega)
    (by omega) (by omega) (.inl (by omega))
  have buffered : (Arm.after d.requests).Buffered ⟨sector, writing, d.totalTicks, d.totalTicks + d.computeLatency sector writing⟩ ↔
      writing = false ∧ moduloDiff sector (d.bufferInit / 500) < (d.totalTicks + (-d.totalTicks) % 500 - d.bufferInit) / 500 := by
    refine and_congr_right fun _ => ⟨fun ⟨p, pass, before⟩ => ?_, fun less => ⟨_, early.1.1, ?_⟩⟩
    · have le := early.2 ⟨pass, show d.bufferInit ≤ p by
        have edge : p % 500 = 0 := pass.boundary
        have arrived := pass.there
        omega⟩
      have before : p < d.totalTicks := before
      omega
    · change d.bufferInit + _ < d.totalTicks
      omega
  have latency : d.computeLatency sector writing = if writing = false ∧
      moduloDiff sector (d.bufferInit / 500) < (d.totalTicks + (-d.totalTicks) % 500 - d.bufferInit) / 500 then 500
      else 0 + ((-d.totalTicks) % 500 + moduloDiff sector ((d.totalTicks + (-d.totalTicks) % 500) / 500) * 500) + 500 := by
    simp only [computeLatency, seek, rotation, true_and, add_zero]
    rw [Int.tdiv_eq_ediv_of_nonneg (by omega), Int.tdiv_eq_ediv_of_nonneg (by omega), Int.tdiv_eq_ediv_of_nonneg (by omega)]
  constructor
  · intro hit
    change d.totalTicks + d.computeLatency sector writing = d.totalTicks + 500
    rw [latency, if_pos (buffered.1 hit)]
  · intro miss
    have due : d.totalTicks + d.computeLatency sector writing - rotationTime =
        d.totalTicks + (-d.totalTicks) % 500 + moduloDiff sector ((d.totalTicks + (-d.totalTicks) % 500) / 500) * 500 := by
      rw [latency, if_neg fun hit => miss (buffered.2 hit), rotation]
      omega
    change IsLeast _ (d.totalTicks + d.computeLatency sector writing - rotationTime)
    rw [due]
    exact late

/-- The arm has to go to the track first. -/
theorem Sound.latency_away (h : d.Sound) (inside : 0 ≤ sector) (away : sector / 16384 ≠ (Arm.after d.requests).track) :
    Latency ⟨sector / 16384, d.totalTicks + |sector / 16384 - (Arm.after d.requests).track| * 500⟩
      ⟨sector, writing, d.totalTicks, d.totalTicks + d.computeLatency sector writing⟩ := by
  have now := h.clock
  have rotation : rotationTime = 500 := rfl
  have far := abs_pos.2 (sub_ne_zero.2 away)
  have seek := h.timeToSeek inside
  generalize |sector / 16384 - (Arm.after d.requests).track| = tracks at seek far ⊢
  have late := first_since ⟨sector / 16384, d.totalTicks + tracks * 500⟩ d.totalTicks
    (t := d.totalTicks + tracks * 500 + (-(d.totalTicks + tracks * 500)) % 500) inside (by omega) (by omega)
    (by change d.totalTicks + tracks * 500 ≤ _; omega) (by omega) (.inr (by change _ < d.totalTicks + tracks * 500 + 500; omega))
  have due : d.totalTicks + d.computeLatency sector writing - rotationTime = d.totalTicks + tracks * 500 + (-(d.totalTicks + tracks * 500)) % 500 +
      moduloDiff sector ((d.totalTicks + tracks * 500 + (-(d.totalTicks + tracks * 500)) % 500) / 500) * 500 := by
    simp only [computeLatency, seek, rotation]
    rw [if_neg (fun hit => by omega), Int.tdiv_eq_ediv_of_nonneg (by omega)]
    omega
  constructor
  · rintro ⟨-, p, pass, before⟩
    have arrived : d.totalTicks + tracks * 500 ≤ p := pass.there
    change p < d.totalTicks at before
    omega
  · intro
    change IsLeast _ (d.totalTicks + d.computeLatency sector writing - rotationTime)
    rw [due]
    exact late

/-- **A request ends when the head has passed its sector**, or when the track buffer has it. -/
theorem Sound.latency (writing : Bool) (h : d.Sound) (inside : 0 ≤ sector) (ready : d.bufferInit ≤ d.totalTicks) {r : Request}
    (eq : r = ⟨sector, writing, d.totalTicks, d.totalTicks + d.computeLatency sector writing⟩) :
    Latency (Arm.after (d.requests ++ [r])) r := by
  subst eq
  have track : (sectorsPerTrack : ℤ) = 16384 := rfl
  rw [Arm.after_append, Arm.move, track]
  split
  · rename_i here
    exact h.latency_here inside ready here
  · rename_i away
    exact h.latency_away inside away

/-- A sector passes only after the buffer has been started. -/
theorem Sound.bufferInit_le (h : d.Sound) {p : ℤ} (pass : (Arm.after d.requests).Passes sector p) : d.bufferInit ≤ p := by
  obtain ⟨-, -, close⟩ := h.since
  have edge : d.bufferInit % 500 = 0 := h.boundary
  have passed : p % 500 = 0 := pass.boundary
  have arrived := pass.there
  have rotation : rotationTime = 500 := rfl
  omega

/-- A request that the disk takes. -/
structure Accepted (d : Disk) (sector : ℤ) (writing : Bool) (d' : Disk) : Prop where
  idle : d.active = false
  inside : 0 ≤ sector ∧ sector < diskSectors
  next : d' = { d.updateLast sector with
    active := true
    pending := d.pending.orderedInsert (· ≤ ·) (d.totalTicks + d.computeLatency sector writing)
    requests := d.requests ++ [⟨sector, writing, d.totalTicks, d.totalTicks + d.computeLatency sector writing⟩] }

theorem accept_ok (done : d.accept sector writing = some d') : Accepted d sector writing d' := by
  simp only [accept, Option.ite_none_left_eq_some, Option.ite_none_right_eq_some, Option.some.injEq, Bool.not_eq_true] at done
  obtain ⟨idle, ⟨low, high, -⟩, next⟩ := done
  exact ⟨idle, ⟨low, high⟩, next.symm⟩

theorem Sound.tick (h : d.Sound) {n : ℕ} (done : d.tick n = some d') : d'.Sound := by
  simp only [Disk.tick, Option.ite_none_right_eq_some, Option.some.injEq] at done
  obtain ⟨-, rfl⟩ := done
  have now := h.clock
  exact { h with clock := by change 0 ≤ d.totalTicks + n; omega }

/-- `UpdateLast` leaves the registers where the arm goes. -/
theorem Sound.accepted (h : d.Sound) (a : Accepted d sector writing d') : d'.Sound := by
  obtain ⟨-, ⟨inside, -⟩, rfl⟩ := a
  have track : (sectorsPerTrack : ℤ) = 16384 := rfl
  have rotation : rotationTime = 500 := rfl
  have now := h.clock
  have seek := h.timeToSeek inside
  have since := h.since
  have edge := h.boundary
  have moved : ∀ r : Request, r.sector = sector → r.made = d.totalTicks → Arm.after (d.requests ++ [r]) =
      if sector / 16384 = (Arm.after d.requests).track then Arm.after d.requests
      else ⟨sector / 16384, d.totalTicks + |sector / 16384 - (Arm.after d.requests).track| * 500⟩ := by
    rintro r rfl made
    rw [Arm.after_append, Arm.move, track, made]
    rfl
  have far := abs_nonneg (sector / 16384 - (Arm.after d.requests).track)
  by_cases here : sector / 16384 = (Arm.after d.requests).track
  · have still : (d.updateLast sector).bufferInit = d.bufferInit := by
      simp only [updateLast, seek, here, sub_self, abs_zero, zero_mul, ne_eq, not_true_eq_false, if_false]
    refine ⟨now, inside, ?_, ?_, ?_⟩
    · rw [moved _ rfl rfl, if_pos here, track]
      exact here
    · rw [moved _ rfl rfl, if_pos here]
      change _ ∧ _ ≤ (d.updateLast sector).bufferInit ∧ (d.updateLast sector).bufferInit < _
      rwa [still]
    · change (d.updateLast sector).bufferInit % _ = 0
      rwa [still]
  · have some : |sector / 16384 - (Arm.after d.requests).track| ≠ 0 := abs_ne_zero.2 (sub_ne_zero.2 here)
    have start : (d.updateLast sector).bufferInit = d.totalTicks + |sector / 16384 - (Arm.after d.requests).track| * 500 +
        (-(d.totalTicks + |sector / 16384 - (Arm.after d.requests).track| * 500)) % 500 := by
      simp only [updateLast, seek]
      rw [if_pos (by omega)]
    refine ⟨now, inside, ?_, ?_, ?_⟩
    · rw [moved _ rfl rfl, if_neg here, track]
      rfl
    · rw [moved _ rfl rfl, if_neg here]
      change 0 ≤ d.totalTicks + _ ∧ d.totalTicks + _ ≤ (d.updateLast sector).bufferInit ∧ (d.updateLast sector).bufferInit < d.totalTicks + _ + rotationTime
      rw [start, rotation]
      omega
    · change (d.updateLast sector).bufferInit % _ = 0
      rw [start, rotation]
      omega

/-- The head is on the track before the interrupt comes. -/
theorem Sound.bufferInit_le_due (h : d.Sound) {r : Request} (latency : Latency (Arm.after d.requests) r) : d.bufferInit ≤ r.due := by
  have rotation : rotationTime = 500 := rfl
  by_cases hit : (Arm.after d.requests).Buffered r
  · have due := latency.buffered hit
    obtain ⟨-, p, pass, before⟩ := hit
    have started := h.bufferInit_le pass
    omega
  · obtain ⟨⟨pass, made⟩, -⟩ := latency.passed hit
    have started := h.bufferInit_le pass
    omega

end Disk

end Nachos.Devices
