import Nachos.Devices.Disk
import Nachos.Devices.Guarded

/-!
# The synchronous disk

`filesys/synchdisk.cc`: a lock, a request to the disk, and a semaphore that the disk's interrupt raises. Any
number of threads read and write sectors. Their calls have the effects of `Mp4.Disk.readSector` and
`writeSector`, one after the other; and as one request ends before the next is made, the arm
is where the disk's registers say.
-/

namespace Nachos.Devices
open Bytes Transition
open Nachos.Mp1 (Semaphore)
open Nachos.Mp4 (Sector diskSectors)

inductive DiskCall where
  | readSector (sectorNumber : Word)
  | writeSector (sectorNumber : Word) (data : Sector)

/-- Before the request, and in `semaphore->P()` with what is in the caller's buffer. -/
inductive DiskPlace where
  | request
  | wait (data : Sector)

inductive DiskEvent where
  | tick (n : ℕ)
  | interrupt

structure SynchDisk (τ : Type) where
  disk : Disk
  semaphore : Semaphore τ

variable {τ : Type}

namespace SynchDisk

def initial (sectors : Mp4.Disk) : SynchDisk τ := ⟨.initial sectors, ⟨0, []⟩⟩

/-- `disk->ReadRequest` and `disk->WriteRequest`. -/
def request (s : SynchDisk τ) : DiskCall → Option (SynchDisk τ × DiskPlace)
  | .readSector sectorNumber => (s.disk.readRequest sectorNumber).map fun r => ({ s with disk := r.1 }, .wait r.2)
  | .writeSector sectorNumber data => (s.disk.writeRequest sectorNumber data).map fun disk => ({ s with disk }, .wait data)

/-- `ReadSector` and `WriteSector` between `Acquire` and `Release`. -/
def run [DecidableEq τ] (s : SynchDisk τ) (t : τ) (c : DiskCall) : DiskPlace → Option (SynchDisk τ × (DiskPlace ⊕ Sector))
  | .request => (s.request c).map fun r => (r.1, .inl r.2)
  | .wait data => (P s.semaphore t).map fun r => ({ s with semaphore := r.1 }, if r.2 then .inr data else .inl (.wait data))

/-- The clock, and `Disk::CallBack` with `SynchDisk::CallBack`. -/
def environment (s : SynchDisk τ) : DiskEvent → Option (SynchDisk τ)
  | .tick n => (s.disk.tick n).map fun disk => { s with disk }
  | .interrupt => s.disk.callBack.map fun disk => ⟨disk, s.semaphore.V⟩

end SynchDisk

def synchDisk (τ : Type) [DecidableEq τ] (sectors : Mp4.Disk) : Service τ DiskCall DiskPlace Sector (SynchDisk τ) DiskEvent where
  start s := s = .initial sectors
  first _ := .request
  run := SynchDisk.run
  environment := SynchDisk.environment

/-! ## What the calls mean -/

/-- The effect of a call on the sectors, and what is in its caller's buffer then. -/
def DiskCall.perform (sectors : Mp4.Disk) : DiskCall → Mp4.Exec (Mp4.Disk × Sector)
  | .readSector sectorNumber => do
    let data ← sectors.readSector sectorNumber
    pure (sectors, data)
  | .writeSector sectorNumber data => do
    let sectors ← sectors.writeSector sectorNumber data
    pure (sectors, data)

/-- Calls with their answers, one after the other. -/
inductive Sequential (sectors : Mp4.Disk) : List (DiskCall × Sector) → Mp4.Disk → Prop where
  | nil : Sequential sectors [] sectors
  | call {served : List (DiskCall × Sector)} {before after : Mp4.Disk} {c : DiskCall} {data : Sector} :
      Sequential sectors served before → c.perform before = .ok (after, data) → Sequential sectors (served ++ [(c, data)]) after

/-! ## Requests one after the other -/

/-- What the requests of a run are like. -/
structure History (d : Disk) : Prop where
  sound : d.Sound
  latency : ∀ before r later, d.requests = before ++ r :: later → Latency (Arm.after (before ++ [r])) r
  apart : d.requests.Pairwise fun r r' => r.due ≤ r'.made
  ended : ∀ r ∈ d.requests, r.due ≤ d.totalTicks ∨ r.due ∈ d.pending
  ready : ∀ t, d.totalTicks ≤ t → (∀ w ∈ d.pending, w ≤ t) → d.bufferInit ≤ t

section history

variable {d d' : Disk} {sector : ℤ} {writing : Bool}

theorem History.initial (sectors : Mp4.Disk) : History (.initial sectors) where
  sound := .initial sectors
  latency before r later none := absurd none (by simp [Disk.initial])
  apart := .nil
  ended _ mem := nomatch mem
  ready _ later _ := later

theorem History.tick (h : History d) {n : ℕ} (done : d.tick n = some d') : History d' := by
  have sound := h.sound.tick done
  simp only [Disk.tick, Option.ite_none_right_eq_some, Option.some.injEq] at done
  obtain ⟨-, rfl⟩ := done
  refine ⟨sound, h.latency, h.apart, fun r mem => (h.ended r mem).imp_left fun past => ?_, fun t later all => h.ready t ?_ all⟩
  · change r.due ≤ d.totalTicks + n
    omega
  · change d.totalTicks + n ≤ t at later
    omega

theorem History.callBack (h : History d) (done : d.callBack = some d') : History d' := by
  rw [Disk.callBack] at done
  split at done
  · cases done
  · rename_i w later pending
    obtain ⟨due, next⟩ := Option.ite_none_right_eq_some.1 done
    obtain rfl := Option.some.inj next
    refine ⟨{ h.sound with }, h.latency, h.apart, fun r mem => ?_, fun t from' all => h.ready t from' fun x mem => ?_⟩
    · obtain past | waits := h.ended r mem
      · exact .inl past
      · rw [pending, List.mem_cons] at waits
        obtain rfl | waits := waits
        · exact .inl due
        · exact .inr waits
    · rw [pending, List.mem_cons] at mem
      obtain rfl | mem := mem
      · exact due.trans from'
      · exact all x mem

/-- A request of an idle disk. -/
theorem History.accepted (h : History d) (idle : d.pending = []) (a : d.Accepted sector writing d') : History d' := by
  have sound := h.sound.accepted a
  have none : ∀ w ∈ d.pending, w ≤ d.totalTicks := by simp [idle]
  have ready := h.ready d.totalTicks le_rfl none
  have last := h.sound.latency writing a.inside.1 ready rfl
  have past : ∀ r ∈ d.requests, r.due ≤ d.totalTicks := fun r mem => (h.ended r mem).resolve_right (by simp [idle])
  obtain ⟨-, -, rfl⟩ := a
  refine ⟨sound, fun before r later split => ?_, ?_, fun r mem => ?_, fun t from' all => ?_⟩
  · obtain rfl | ⟨later, x, rfl⟩ := List.eq_nil_or_concat later
    · obtain ⟨rfl, eq⟩ := List.append_inj' split rfl
      obtain rfl := List.singleton_inj.1 eq
      exact last
    · rw [List.concat_eq_append, ← List.cons_append, ← List.append_assoc] at split
      exact h.latency before r later (List.append_inj' split rfl).1
  · refine List.pairwise_append.2 ⟨h.apart, List.pairwise_singleton _ _, fun r mem r' mem' => ?_⟩
    obtain rfl := List.mem_singleton.1 mem'
    exact past r mem
  · obtain old | new := List.mem_append.1 mem
    · exact .inl (past r old)
    · obtain rfl := List.mem_singleton.1 new
      exact .inr ((List.mem_orderedInsert _).2 (.inl rfl))
  · have due := all _ ((List.mem_orderedInsert _).2 (.inl rfl))
    exact (sound.bufferInit_le_due last).trans due

end history

/-! ## The thread inside the lock -/

/-- The device and its semaphore, by the place of the thread inside. -/
def SynchDisk.Device (s : SynchDisk τ) : Option (τ × DiskCall × DiskPlace) → Prop
  | some (t, _, .wait _) =>
    (s.disk.active = true ∧ (∃ w, s.disk.pending = [w]) ∧ Down s.semaphore t) ∨
      (s.disk.active = false ∧ s.disk.pending = [] ∧ s.semaphore = ⟨1, []⟩)
  | _ => s.disk.active = false ∧ s.disk.pending = [] ∧ s.semaphore = ⟨0, []⟩

/-- The call whose data has been moved. -/
def underWay : Option (τ × DiskCall × DiskPlace) → List (DiskCall × Sector)
  | some (_, c, .wait data) => [(c, data)]
  | _ => []

/-- The disk at work. -/
structure Works (sectors : Mp4.Disk) (u : Serving τ DiskCall DiskPlace Sector (SynchDisk τ)) : Prop where
  history : History u.state.disk
  device : u.state.Device u.inside
  sequential : Sequential sectors (u.served ++ underWay u.inside) u.state.disk.sectors

/-- A request that the disk takes moves the data of its call. -/
structure Requested (s : SynchDisk τ) (c : DiskCall) (s' : SynchDisk τ) (data : Sector) : Prop where
  accepted : ∃ sector writing d', s.disk.Accepted sector writing d' ∧ s'.disk = { d' with sectors := s'.disk.sectors }
  effect : c.perform s.disk.sectors = .ok (s'.disk.sectors, data)
  semaphore : s'.semaphore = s.semaphore

section requests

variable {s s' : SynchDisk τ} {c : DiskCall} {place : DiskPlace} {sectors : Mp4.Disk}

theorem requested (done : s.request c = some (s', place)) : ∃ data, place = .wait data ∧ Requested s c s' data := by
  cases c with
  | readSector sectorNumber =>
    simp only [SynchDisk.request, Disk.readRequest, Option.map_map, Option.map_eq_some_iff, Function.comp, Prod.mk.injEq] at done
    obtain ⟨d', accepted, rfl, rfl⟩ := done
    have a := Disk.accept_ok accepted
    refine ⟨_, rfl, ⟨_, _, d', a, rfl⟩, ?_, rfl⟩
    rw [DiskCall.perform, Mp4.readSector_eq (Mp4.onDisk_iff.1 a.inside), a.next]
    rfl
  | writeSector sectorNumber data =>
    simp only [SynchDisk.request, Disk.writeRequest, Option.map_map, Option.map_eq_some_iff, Function.comp, Prod.mk.injEq] at done
    obtain ⟨d', accepted, rfl, rfl⟩ := done
    have a := Disk.accept_ok accepted
    refine ⟨_, rfl, ⟨_, _, d', a, rfl⟩, ?_, rfl⟩
    rw [DiskCall.perform, Mp4.writeSector_eq (Mp4.onDisk_iff.1 a.inside)]
    rfl

theorem History.requested {data : Sector} (h : History s.disk) (idle : s.disk.pending = []) (r : Requested s c s' data) :
    History s'.disk := by
  obtain ⟨sector, writing, d', accepted, eq⟩ := r.accepted
  have next := h.accepted idle accepted
  rw [eq]
  exact { next with sound := { next.sound with } }

/-- The interrupt comes only while the thread inside waits for it. -/
theorem Works.interrupt {u : Serving τ DiskCall DiskPlace Sector (SynchDisk τ)} (h : Works sectors u) {d : Disk}
    (done : u.state.disk.callBack = some d) : Works sectors { u with state := ⟨d, u.state.semaphore.V⟩ } := by
  have history := h.history.callBack done
  have device := h.device
  have sequential := h.sequential
  have same : d.sectors = u.state.disk.sectors := by
    rw [Disk.callBack] at done
    split at done
    · cases done
    · obtain ⟨-, next⟩ := Option.ite_none_right_eq_some.1 done
      rw [← Option.some.inj next]
  refine ⟨history, ?_, same ▸ sequential⟩
  have some : u.state.disk.pending ≠ [] := by
    intro none
    rw [Disk.callBack, none] at done
    cases done
  cases inside : u.inside with
  | none =>
    rw [inside] at device
    exact absurd device.2.1 some
  | some x =>
    obtain ⟨t, c, place⟩ := x
    cases place with
    | request =>
      rw [inside] at device
      exact absurd device.2.1 some
    | wait data =>
      rw [inside] at device
      obtain ⟨-, ⟨w, pending⟩, down⟩ | ⟨-, none, -⟩ := device
      · rw [Disk.callBack, pending] at done
        obtain ⟨-, next⟩ := Option.ite_none_right_eq_some.1 done
        obtain rfl := Option.some.inj next
        exact .inr ⟨rfl, rfl, down.V⟩
      · exact absurd none some

theorem Works.stepped [DecidableEq τ] {u u' : Serving τ DiskCall DiskPlace Sector (SynchDisk τ)} (h : Works sectors u)
    (next : Service.Stepped (synchDisk τ sectors) (fun _ => True) u u') : Works sectors u' := by
  obtain ⟨history, device, sequential⟩ := h
  cases next with
  | enter t c free _ =>
    rw [free] at device sequential
    exact ⟨history, device, sequential⟩
  | @go t c p q state inside run =>
    rw [inside] at device sequential
    cases p with
    | request =>
      obtain ⟨⟨s', place⟩, done, eq⟩ := Option.map_eq_some_iff.1 run
      obtain ⟨data, rfl, r⟩ := requested done
      cases eq
      obtain ⟨idle, none, up⟩ := device
      refine ⟨history.requested none r, .inl ?_, ?_⟩
      · obtain ⟨sector, writing, d', accepted, eq⟩ := r.accepted
        change s'.disk.active = true ∧ (∃ w, s'.disk.pending = [w]) ∧ Down s'.semaphore t
        rw [eq, accepted.next, none, r.semaphore, up]
        exact ⟨rfl, ⟨_, rfl⟩, rfl, .inl rfl⟩
      · change Sequential sectors (u.served ++ []) _ at sequential
        rw [List.append_nil] at sequential
        exact sequential.call r.effect
    | wait data =>
      obtain ⟨⟨semaphore, passed⟩, done, eq⟩ := Option.map_eq_some_iff.1 run
      obtain ⟨rfl, down, down'⟩ | ⟨rfl, -, -⟩ := P_cases done (device.imp (fun busy => busy.2.2) fun idle => idle.2.2)
      · cases eq
        obtain ⟨busy, pending, -⟩ | ⟨-, -, up⟩ := device
        · exact ⟨history, .inl ⟨busy, pending, down'⟩, sequential⟩
        · rw [up] at down
          cases down.1
      · cases eq
  | @done t c p answer state inside run =>
    rw [inside] at device sequential
    cases p with
    | request =>
      obtain ⟨_, -, eq⟩ := Option.map_eq_some_iff.1 run
      cases eq
    | wait data =>
      obtain ⟨⟨semaphore, passed⟩, done, eq⟩ := Option.map_eq_some_iff.1 run
      obtain ⟨rfl, -, -⟩ | ⟨rfl, up, taken⟩ := P_cases done (device.imp (fun busy => busy.2.2) fun idle => idle.2.2)
      · cases eq
      · cases eq
        obtain ⟨-, -, down⟩ | ⟨idle, none, -⟩ := device
        · rw [up] at down
          cases down.1
        · refine ⟨history, ⟨idle, none, taken⟩, ?_⟩
          change Sequential sectors ((u.served ++ [(c, answer)]) ++ []) _
          rw [List.append_nil]
          exact sequential
  | environment e run =>
    cases e with
    | tick n =>
      obtain ⟨d, done, rfl⟩ := Option.map_eq_some_iff.1 run
      have next := history.tick done
      simp only [Disk.tick, Option.ite_none_right_eq_some, Option.some.injEq] at done
      obtain ⟨-, rfl⟩ := done
      exact ⟨next, device, sequential⟩
    | interrupt =>
      obtain ⟨d, done, rfl⟩ := Option.map_eq_some_iff.1 run
      exact Works.interrupt ⟨history, device, sequential⟩ done

theorem works_of_reach [DecidableEq τ] {u : Serving τ DiskCall DiskPlace Sector (SynchDisk τ)}
    (reach : Reach (synchDisk τ sectors).alone (Service.Enters fun _ => True) u) : Works sectors u := by
  refine Service.invariant (Works sectors) ?_ (fun u u' works => works.stepped) reach
  rintro _ rfl
  exact ⟨.initial sectors, ⟨rfl, rfl, rfl⟩, .nil⟩

end requests

/-! ## Any number of threads -/

section threads

variable [DecidableEq τ] {sectors : Mp4.Disk} {s : Guarded τ DiskCall DiskPlace Sector (SynchDisk τ)}

/-- **Sector reads and writes are atomic.** In every interleaving no assertion of the disk or of the lock fails and no
interrupt is lost; the sectors and the callers' buffers are those of the calls one after the other, in the order in which they took the
lock, with the one under way whose data has been moved. -/
theorem synchDisk_atomic (reach : Reach (guarded (synchDisk τ sectors)) (fun _ _ => True) s) :
    (∀ t c, s.place t = .inside c .request →
        s.state.disk.active = false ∧ ∀ sector writing, 0 ≤ sector → 0 < s.state.disk.computeLatency sector writing) ∧
      (∀ t c data, s.place t = .release c data → s.lockHolder = some t) ∧
      (∀ t c data, s.place t = .inside c (.wait data) →
        (∃ w, s.state.disk.pending = [w]) ∨ s.state.semaphore.value = 1 ∧ t ∉ s.state.semaphore.queue) ∧
      (Sequential sectors s.served s.state.disk.sectors ∨
        ∃ t c data, s.place t = .inside c (.wait data) ∧ Sequential sectors (s.served ++ [(c, data)]) s.state.disk.sectors) := by
  obtain ⟨u, alone, serves⟩ := Guarded.serves_of_reach reach
  obtain ⟨history, device, sequential⟩ := works_of_reach alone
  rw [serves.state, serves.served]
  refine ⟨fun t c at_t => ?_, fun t c data at_t => serves.holder at_t, fun t c data at_t => ?_, ?_⟩
  · rw [serves.inside at_t] at device
    refine ⟨device.1, fun sector writing inside => ?_⟩
    have ready := history.ready u.state.disk.totalTicks le_rfl (by simp [device.2.1])
    have last := history.sound.latency writing inside ready rfl
    have later : u.state.disk.totalTicks < u.state.disk.totalTicks + u.state.disk.computeLatency sector writing := last.later
    omega
  · rw [serves.inside at_t] at device
    obtain ⟨-, pending, -⟩ | ⟨-, -, up⟩ := device
    · exact .inl pending
    · rw [up]
      exact .inr ⟨rfl, List.not_mem_nil⟩
  · cases inside : u.inside with
    | none =>
      rw [inside] at sequential
      exact .inl (by simpa [underWay] using sequential)
    | some x =>
      obtain ⟨t, c, place⟩ := x
      rw [inside] at sequential
      cases place with
      | request => exact .inl (by simpa [underWay] using sequential)
      | wait data => exact .inr ⟨t, c, data, serves.place inside, sequential⟩

/-- One thread writes a sector while another one waits to read it. -/
def writeRead : List (GuardedEvent Bool DiskCall DiskEvent) :=
  [.call true (.writeSector 5 (.tabulate fun _ => 7)), .run true, .run true, .environment (.tick 10), .run true,
    .call false (.readSector 5), .run false, .run true, .environment (.tick 4000), .environment .interrupt, .run true, .run true, .run true,
    .run false, .run false, .run false]

/-- The state before the first call. -/
def fresh (sectors : Mp4.Disk) : Guarded τ DiskCall DiskPlace Sector (SynchDisk τ) := ⟨.initial sectors, ⟨1, []⟩, none, fun _ => .outside, []⟩

theorem reach_writeRead : ∃ s, Reach (guarded (synchDisk Bool fun _ => .tabulate fun _ => 0)) (fun _ _ => True) s ∧
    s.served.map Prod.snd = [.tabulate fun _ => 7] ∧ s.state.disk.requests = [⟨5, true, 10, 3000⟩, ⟨5, false, 4010, 4510⟩] := by
  have start : Reach (guarded (synchDisk Bool fun _ => .tabulate fun _ => 0)) (fun _ _ => True) (fresh _) :=
    .init ⟨rfl, rfl, rfl, fun _ => rfl, rfl⟩
  exact ⟨_, start.run (Guarded.step _) (fun _ _ _ next => next) writeRead rfl, rfl, rfl⟩

/-- The read is under way and has got what was written. -/
theorem synchDisk_atomic_writeRead : ∃ s : Guarded Bool DiskCall DiskPlace Sector (SynchDisk Bool),
    s.served.map Prod.snd = [.tabulate fun _ => 7] ∧
      (Sequential (fun _ => .tabulate fun _ => 0) s.served s.state.disk.sectors ∨ ∃ t c data, s.place t = .inside c (.wait data) ∧
        Sequential (fun _ => .tabulate fun _ => 0) (s.served ++ [(c, data)]) s.state.disk.sectors) := by
  obtain ⟨s, reach, served, -⟩ := reach_writeRead
  exact ⟨s, served, (synchDisk_atomic reach).2.2.2⟩

/-- **The disk keeps its times.** In every interleaving requests do not overlap, and each one is due when the head, which
goes from track to track with the requests, has passed its sector, or when the track buffer can deliver it. -/
theorem synchDisk_latency (reach : Reach (guarded (synchDisk τ sectors)) (fun _ _ => True) s) (before : List Request) (r : Request)
    (later : List Request) (split : s.state.disk.requests = before ++ r :: later) :
    Latency (Arm.after (before ++ [r])) r ∧ ∀ r' ∈ later, r.due ≤ r'.made := by
  obtain ⟨u, alone, serves⟩ := Guarded.serves_of_reach reach
  obtain ⟨history, -, -⟩ := works_of_reach alone
  rw [serves.state] at split
  refine ⟨history.latency before r later split, ?_⟩
  have apart := history.apart
  rw [split, List.pairwise_append] at apart
  exact (List.pairwise_cons.1 apart.2.1).1

/-- The write waits for its sector, the read is served from the track buffer. -/
theorem synchDisk_latency_writeRead :
    Latency (Arm.after [⟨5, true, 10, 3000⟩, ⟨5, false, 4010, 4510⟩]) ⟨5, false, 4010, 4510⟩ := by
  obtain ⟨s, reach, -, requests⟩ := reach_writeRead
  exact (synchDisk_latency reach [⟨5, true, 10, 3000⟩] ⟨5, false, 4010, 4510⟩ [] requests).1

end threads

end Nachos.Devices
