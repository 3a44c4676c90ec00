import Nachos.Devices.PostOfficeOutput

/-!
# Mail between machines

`NetworkInput` of `machine/network.cc` and `PostOfficeInput` of `network/post.cc`, on the machines of a network. A
sender's datagram goes to the socket of the machine it is addressed to; there it is polled into the one
packet buffer, the postal worker takes it out and puts the mail into its box, and threads receive from the
boxes. A box is a synchronized list, whose operations are single steps here.
-/

namespace Nachos.Devices
open Bytes Transition
open Nachos.Mp1 (Semaphore)

/-- The box that a mail is for. -/
def Mail.box (m : Mail) : ℕ := m.mailHdr.to'.toNat

/-- Where the postal worker stands. -/
inductive WorkerPlace where
  /-- In `messageAvailable->P()`. -/
  | wait
  /-- Before `network->Receive(buffer)`. -/
  | receive
  /-- Before `Put`. -/
  | put (m : Mail)

/-- `received` is what threads have received from each box. -/
structure PostOfficeInput where
  inHdr : PacketHeader
  inbox : List Byte
  messageAvailable : Semaphore Unit
  worker : WorkerPlace
  buffer : List Byte
  boxes : ℕ → List Mail
  received : ℕ → List Mail

/-- A box that exists. -/
def BoxOf (numBoxes : ℕ) (box : Word) : Prop := 0 ≤ box.toInt ∧ box.toInt < numBoxes

instance (numBoxes : ℕ) (box : Word) : Decidable (BoxOf numBoxes box) := inferInstanceAs (Decidable (_ ∧ _))

/-- What becomes of a call of `Receive`. -/
inductive Getting where
  /-- An `ASSERT` fails. -/
  | fails
  /-- There is no message yet. -/
  | waits
  | gets (s : PostOfficeInput)

def Getting.taken : Getting → Option PostOfficeInput
  | .gets s => some s
  | .fails | .waits => none

theorem Getting.taken_eq {r : Getting} {s : PostOfficeInput} (h : r.taken = some s) : r = .gets s := by
  cases r with
  | gets s' =>
    obtain rfl := Option.some.inj h
    rfl
  | fails | waits => cases h

namespace PostOfficeInput

/-- `NetworkInput::CallBack` with `PostOfficeInput::CallBack`, on the machine's socket. None if the `ASSERT` fails. -/
def callBack (hostName : Word) (s : PostOfficeInput) (sock : List (List Byte)) : Option (PostOfficeInput × List (List Byte)) :=
  if s.inHdr.length ≠ 0 then some (s, sock)
  else
    match sock with
    | [] => some (s, [])
    | buffer :: later =>
      let inHdr := Header.ofBytes buffer
      if inHdr.to' = hostName ∧ inHdr.length.toNat ≤ maxPacketSize then
        some ({ s with
          inHdr, inbox := overwrite s.inbox 0 ((buffer.drop headerSize).take inHdr.length.toNat)
          messageAvailable := s.messageAvailable.V }, later)
      else none

/-- `NetworkInput::Receive` into the worker's buffer. -/
def receive (s : PostOfficeInput) : PostOfficeInput × PacketHeader :=
  ({ s with
    inHdr := { s.inHdr with length := 0 }
    buffer := if s.inHdr.length ≠ 0 then overwrite s.buffer 0 (s.inbox.take s.inHdr.length.toNat) else s.buffer }, s.inHdr)

/-- The next step of `PostalDelivery`: none if the worker sleeps, or if an `ASSERT` fails. -/
def work (numBoxes : ℕ) (s : PostOfficeInput) : Option PostOfficeInput :=
  match s.worker with
  | .wait => (P s.messageAvailable ()).map fun r => { s with messageAvailable := r.1, worker := if r.2 then .receive else .wait }
  | .receive =>
    let (s, pktHdr) := s.receive
    let mailHdr := Header.ofBytes s.buffer
    if 0 ≤ mailHdr.to'.toInt ∧ mailHdr.to'.toInt < numBoxes ∧ mailHdr.length.toNat ≤ maxMailSize then
      some { s with worker := .put ⟨pktHdr, mailHdr, (s.buffer.drop headerSize).take mailHdr.length.toNat⟩ }
    else none
  | .put m => some { s with worker := .wait, boxes := Function.update s.boxes m.box (s.boxes m.box ++ [m]) }

/-- `PostOfficeInput::Receive` from a box. -/
def get (numBoxes : ℕ) (s : PostOfficeInput) (box : Word) : Getting :=
  if BoxOf numBoxes box then
    match s.boxes box.toNat with
    | [] => .waits
    | m :: later =>
      if m.mailHdr.length.toNat ≤ maxMailSize then
        .gets { s with
          boxes := Function.update s.boxes box.toNat later
          received := Function.update s.received box.toNat (s.received box.toNat ++ [m]) }
      else .fails
  else .fails

/-- The mail that the worker holds. -/
def hand (s : PostOfficeInput) : List Mail :=
  match s.worker with
  | .put m => [m]
  | _ => []

/-- The mail in the packet buffer. -/
def arrived (s : PostOfficeInput) : List Mail :=
  if s.inHdr.length ≠ 0 then
    [⟨s.inHdr, Header.ofBytes s.inbox, (s.inbox.drop headerSize).take (Header.ofBytes s.inbox).length.toNat⟩]
  else []

end PostOfficeInput

/-- The machines and their sockets; `log` is what has been given to the sockets. -/
structure Network (τ : Type) where
  output : Word → Guarded τ SendCall SendPlace Unit (PostOfficeOutput τ)
  socket : Word → List (List Byte)
  input : Word → PostOfficeInput
  log : List Mail

inductive NetworkEvent (τ : Type) where
  /-- A thread of a machine calls `Send`, or takes its next step; or the network interface moves. -/
  | output (host : Word) (e : GuardedEvent τ SendCall SendEvent)
  | poll (host : Word)
  | work (host : Word)
  | receive (host : Word) (box : Word)

variable {τ : Type} [DecidableEq τ]

namespace Network

/-- The datagrams of a step go to the sockets. -/
def transfer (s : Network τ) (host : Word) (out : Guarded τ SendCall SendPlace Unit (PostOfficeOutput τ)) : Network τ :=
  let new := out.state.sent.drop (s.output host).state.sent.length
  { s with
    output := Function.update s.output host out
    socket := fun h => s.socket h ++ (new.filter fun d => d.1.pktHdr.to' = h).map Prod.snd
    log := s.log ++ new.map Prod.fst }

def step (numBoxes : Word → ℕ) (s : Network τ) : NetworkEvent τ → Option (Network τ)
  | .output host e => ((s.output host).step (postOfficeOutput τ host) e).map (s.transfer host)
  | .poll host => ((s.input host).callBack host (s.socket host)).map fun r =>
      { s with input := Function.update s.input host r.1, socket := Function.update s.socket host r.2 }
  | .work host => ((s.input host).work (numBoxes host)).map fun input => { s with input := Function.update s.input host input }
  | .receive host box => ((s.input host).get (numBoxes host) box).taken.map fun input => { s with input := Function.update s.input host input }

/-- The mail on its way to the boxes of a machine. -/
def onTheWay (s : Network τ) (host : Word) : List Mail :=
  (s.input host).hand ++ (s.input host).arrived ++ (s.socket host).map Mail.ofWire

end Network

/-- A machine when it starts. The buffers hold what they held. -/
structure PostOfficeInput.Starts (s : PostOfficeInput) : Prop where
  inHdr : s.inHdr.length = 0
  inbox : s.inbox.length = maxPacketSize
  messageAvailable : s.messageAvailable = ⟨0, []⟩
  worker : s.worker = .wait
  buffer : s.buffer.length = maxPacketSize
  boxes : ∀ b, s.boxes b = []
  received : ∀ b, s.received b = []

/-- The network of machines with so many boxes. -/
def network (τ : Type) [DecidableEq τ] (numBoxes : Word → ℕ) : System (Network τ) (NetworkEvent τ) where
  init s := (∀ h, (guarded (postOfficeOutput τ h)).init (s.output h)) ∧ (∀ h, s.socket h = []) ∧ (∀ h, (s.input h).Starts) ∧ s.log = []
  step s e s' := s.step numBoxes e = some s'

/-- What threads may send: the arguments pass the `ASSERT`s of `Send`, and the box is one of the receiver's. -/
structure SendCall.Proper (numBoxes : Word → ℕ) (host : Word) (c : SendCall) : Prop where
  legal : c.Legal host
  box : c.mailHdr.to'.toNat < numBoxes c.pktHdr.to'

/-- Threads send to boxes that exist, and receive from such boxes. -/
structure Proper (numBoxes : Word → ℕ) (_ : Network τ) (e : NetworkEvent τ) : Prop where
  sends : ∀ host t c, e = .output host (.call t c) → c.Proper numBoxes host
  receives : ∀ host box, e = .receive host box → BoxOf (numBoxes host) box

/-! ## One machine -/

/-- A mail for a machine with so many boxes. -/
structure Mail.For (m : Mail) (host : Word) (numBoxes : ℕ) : Prop where
  legal : m.Legal
  host : m.pktHdr.to' = host
  box : m.box < numBoxes

/-- Where the postal worker can be while there is no packet in the buffer. -/
inductive Idle (s : PostOfficeInput) : Prop where
  | waits (worker : s.worker = .wait) (down : Down s.messageAvailable ())
  | puts (m : Mail) (worker : s.worker = .put m) (down : s.messageAvailable = ⟨0, []⟩)

/-- Where it can be while there is one. -/
inductive Awake (s : PostOfficeInput) : Prop where
  | waits (worker : s.worker = .wait) (up : s.messageAvailable = ⟨1, []⟩)
  | puts (m : Mail) (worker : s.worker = .put m) (up : s.messageAvailable = ⟨1, []⟩)
  | receives (worker : s.worker = .receive) (down : s.messageAvailable = ⟨0, []⟩)

/-- The packet buffer and the worker. -/
inductive Buffered (host : Word) (numBoxes : ℕ) (s : PostOfficeInput) : Prop where
  | empty (none : s.inHdr.length = 0) (idle : Idle s)
  | full (m : Mail) (for' : m.For host numBoxes) (header : s.inHdr = m.pktHdr)
      (data : ∃ rest, s.inbox = m.mailHdr.bytes ++ (m.data ++ rest)) (awake : Awake s)

structure PostOfficeInput.Sound (host : Word) (numBoxes : ℕ) (s : PostOfficeInput) : Prop where
  inbox : s.inbox.length = maxPacketSize
  buffer : s.buffer.length = maxPacketSize
  buffered : Buffered host numBoxes s
  hand : ∀ m ∈ s.hand, m.For host numBoxes
  boxes : ∀ b, ∀ m ∈ s.boxes b, m.Legal

/-- A datagram for a machine. -/
def Datagram (host : Word) (numBoxes : ℕ) (d : List Byte) : Prop :=
  ∃ (m : Mail) (rest : List Byte), m.For host numBoxes ∧ d = m.bytes ++ rest

section machine

variable {host : Word} {numBoxes : ℕ} {s s' : PostOfficeInput} {m : Mail} {socket : List (List Byte)}

theorem arrived_full (legal : m.Legal) (header : s.inHdr = m.pktHdr) (data : ∃ rest, s.inbox = m.mailHdr.bytes ++ (m.data ++ rest)) :
    s.inHdr.length ≠ 0 ∧ s.arrived = [m] := by
  obtain ⟨rest, data⟩ := data
  have some : s.inHdr.length ≠ 0 := by
    intro none
    have length := legal.toNat_length
    rw [← header, none, show (0 : Word).toNat = 0 from rfl] at length
    omega
  refine ⟨some, ?_⟩
  rw [PostOfficeInput.arrived, if_pos some, data, Header.ofBytes_append, header]
  rw [show headerSize = 12 from rfl, List.drop_left' (Header.length_bytes _), List.take_left' legal.data]

theorem arrived_empty (none : s.inHdr.length = 0) : s.arrived = [] := if_neg (not_not.2 none)

/-- What is there of the mail for a box: received, in the box, and on the way. -/
def PostOfficeInput.account (s : PostOfficeInput) (socket : List (List Byte)) (b : ℕ) : List Mail :=
  s.received b ++ s.boxes b ++ (s.hand ++ s.arrived ++ socket.map Mail.ofWire).filter fun m => m.box = b

theorem PostOfficeInput.account_append (s : PostOfficeInput) (socket new : List (List Byte)) (b : ℕ) :
    s.account (socket ++ new) b = s.account socket b ++ (new.map Mail.ofWire).filter fun m => m.box = b := by
  rw [account, account, List.map_append, ← List.append_assoc (s.hand ++ s.arrived), List.filter_append, ← List.append_assoc]

/-- A poll fails no assertion and loses nothing. -/
theorem PostOfficeInput.Sound.callBack (h : s.Sound host numBoxes) (good : ∀ d ∈ socket, Datagram host numBoxes d) :
    ∃ s' socket', s.callBack host socket = some (s', socket') ∧ s'.Sound host numBoxes ∧ (∀ d ∈ socket', Datagram host numBoxes d) ∧
      ∀ b, s'.account socket' b = s.account socket b := by
  obtain ⟨inbox, buffer, buffered, hand, boxes⟩ := h
  cases buffered with
  | full m for' header data awake =>
    have full := arrived_full for'.legal header data
    exact ⟨s, socket, if_pos full.1, ⟨inbox, buffer, .full m for' header data awake, hand, boxes⟩, good, fun _ => rfl⟩
  | empty none idle =>
    cases socket with
    | nil => exact ⟨s, [], if_neg (not_not.2 none), ⟨inbox, buffer, .empty none idle, hand, boxes⟩, good, fun _ => rfl⟩
    | cons d later =>
      obtain ⟨m, rest, for', rfl⟩ := good d List.mem_cons_self
      have legal := for'.legal
      have short := legal.short
      have length := legal.toNat_length
      have header : Header.ofBytes (m.bytes ++ rest) = m.pktHdr := by
        rw [Mail.bytes, List.append_assoc, Header.ofBytes_append]
      have data : ((m.bytes ++ rest).drop headerSize).take m.pktHdr.length.toNat = m.mailHdr.bytes ++ m.data := by
        rw [Mail.bytes, List.append_assoc, show headerSize = 12 from rfl, List.drop_left' (Header.length_bytes _), List.append_assoc,
          legal.take_data]
      have fits : (m.mailHdr.bytes ++ m.data).length ≤ 52 := by
        rw [List.length_append, Header.length_bytes, legal.data]
        omega
      have passes : m.pktHdr.to' = host ∧ m.pktHdr.length.toNat ≤ maxPacketSize := by
        refine ⟨for'.host, ?_⟩
        change _ ≤ 52
        omega
      have read : s.callBack host ((m.bytes ++ rest) :: later) = some ({ s with
          inHdr := m.pktHdr, inbox := overwrite s.inbox 0 (m.mailHdr.bytes ++ m.data), messageAvailable := s.messageAvailable.V }, later) := by
        simp only [PostOfficeInput.callBack, if_neg (not_not.2 none), header, data, if_pos passes]
      have inbox' : overwrite s.inbox 0 (m.mailHdr.bytes ++ m.data) = m.mailHdr.bytes ++ (m.data ++ s.inbox.drop (m.mailHdr.bytes ++ m.data).length) := by
        rw [overwrite_zero, List.append_assoc]
      have awake (s' : PostOfficeInput) (worker : s'.worker = s.worker) (up : s'.messageAvailable = s.messageAvailable.V) : Awake s' := by
        cases idle with
        | waits at' down => exact .waits (worker.trans at') (up.trans down.V)
        | puts m at' down => exact .puts m (worker.trans at') (by rw [up, down]; rfl)
      refine ⟨_, later, read, ⟨?_, buffer, .full m for' rfl ⟨_, inbox'⟩ (awake _ rfl rfl), hand, boxes⟩,
        fun d mem => good d (List.mem_cons_of_mem _ mem), fun b => ?_⟩
      · rw [length_overwrite (by rw [Nat.zero_add, inbox]; exact fits), inbox]
      · have full := arrived_full legal (s := { s with
            inHdr := m.pktHdr, inbox := overwrite s.inbox 0 (m.mailHdr.bytes ++ m.data), messageAvailable := s.messageAvailable.V }) rfl ⟨_, inbox'⟩
        rw [PostOfficeInput.account, PostOfficeInput.account, full.2, arrived_empty none, List.map_cons, Mail.ofWire_append legal,
          List.append_nil, List.append_assoc _ [m], List.singleton_append]
        rfl

/-- The worker fails no assertion and loses nothing. -/
theorem PostOfficeInput.Sound.work (h : s.Sound host numBoxes) :
    (s.worker ≠ .wait → s.work numBoxes ≠ none) ∧
      ∀ s', s.work numBoxes = some s' → s'.Sound host numBoxes ∧ ∀ socket b, s'.account socket b = s.account socket b := by
  obtain ⟨inbox, buffer, buffered, hand, boxes⟩ := h
  rw [PostOfficeInput.work]
  cases worker : s.worker with
  | wait =>
    refine ⟨fun ne => absurd rfl ne, fun s' done => ?_⟩
    obtain ⟨⟨messageAvailable, passed⟩, tests, rfl⟩ := Option.map_eq_some_iff.1 done
    have same (place : WorkerPlace) (none : ∀ m, place ≠ .put m) :
        ({ s with messageAvailable, worker := place } : PostOfficeInput).hand = s.hand := by
      rw [PostOfficeInput.hand, PostOfficeInput.hand, worker]
      cases place with
      | put m => exact absurd rfl (none m)
      | wait | receive => rfl
    have ends : ({ s with messageAvailable, worker := if passed then .receive else .wait } : PostOfficeInput).hand = s.hand :=
      same _ fun m => by cases passed <;> exact WorkerPlace.noConfusion
    refine ⟨⟨inbox, buffer, ?_, ?_, boxes⟩, fun socket b => ?_⟩
    · cases buffered with
      | empty none idle =>
        cases idle with
        | puts m at' _ => rw [worker] at at'; cases at'
        | waits _ down =>
          obtain ⟨rfl, -, down'⟩ | ⟨-, up, -⟩ := P_cases tests (.inl down)
          · exact .empty none (.waits rfl down')
          · rw [up] at down
            cases down.1
      | full m for' header data awake =>
        cases awake with
        | puts m at' _ => rw [worker] at at'; cases at'
        | receives at' _ => rw [worker] at at'; cases at'
        | waits _ up =>
          obtain ⟨-, down, -⟩ | ⟨rfl, -, taken⟩ := P_cases tests (.inr up)
          · rw [up] at down
            cases down.1
          · exact .full m for' header data (.receives rfl taken)
    · rw [ends]
      exact hand
    · rw [PostOfficeInput.account, PostOfficeInput.account, ends]
      rfl
  | put m =>
    refine ⟨fun _ => Option.some_ne_none _, fun s' done => ?_⟩
    obtain rfl := Option.some.inj done
    have held : s.hand = [m] := by rw [PostOfficeInput.hand, worker]
    refine ⟨⟨inbox, buffer, ?_, nofun, ?_⟩, fun socket b => ?_⟩
    · cases buffered with
      | empty none idle =>
        cases idle with
        | waits at' _ => rw [worker] at at'; cases at'
        | puts m at' down => exact .empty none (.waits rfl (by rw [down]; exact ⟨rfl, .inl rfl⟩))
      | full m' for' header data awake =>
        cases awake with
        | waits at' _ => rw [worker] at at'; cases at'
        | receives at' _ => rw [worker] at at'; cases at'
        | puts m at' up => exact .full m' for' header data (.waits rfl up)
    · intro b x mem
      change x ∈ Function.update s.boxes m.box (s.boxes m.box ++ [m]) b at mem
      obtain rfl | ne := eq_or_ne b m.box
      · rw [Function.update_self] at mem
        obtain old | new := List.mem_append.1 mem
        · exact boxes _ x old
        · obtain rfl := List.mem_singleton.1 new
          exact (hand x (by rw [held]; exact List.mem_singleton_self x)).legal
      · rw [Function.update_of_ne ne] at mem
        exact boxes b x mem
    · rw [PostOfficeInput.account, PostOfficeInput.account, held]
      change s.received b ++ Function.update s.boxes m.box (s.boxes m.box ++ [m]) b ++ ([] ++ s.arrived ++ _).filter _ = _
      obtain rfl | ne := eq_or_ne b m.box
      · rw [Function.update_self, List.append_assoc [m], List.singleton_append, List.filter_cons_of_pos (by simp), List.nil_append]
        simp only [List.append_assoc, List.singleton_append]
      · rw [Function.update_of_ne ne, List.append_assoc [m], List.singleton_append, List.filter_cons_of_neg (by simpa using ne.symm),
          List.nil_append]
  | receive =>
    cases buffered with
    | empty none idle =>
      cases idle with
      | waits at' _ => rw [worker] at at'; cases at'
      | puts m at' _ => rw [worker] at at'; cases at'
    | full m for' header data awake =>
      cases awake with
      | waits at' _ => rw [worker] at at'; cases at'
      | puts m at' _ => rw [worker] at at'; cases at'
      | receives _ down =>
        have legal := for'.legal
        have short := legal.short
        obtain ⟨some, full⟩ := arrived_full legal header data
        obtain ⟨rest, data⟩ := data
        have fits : (m.mailHdr.bytes ++ m.data).length ≤ 52 := by
          rw [List.length_append, Header.length_bytes, legal.data]
          omega
        have buffer' : s.receive.1.buffer = m.mailHdr.bytes ++ (m.data ++ s.buffer.drop (m.mailHdr.bytes ++ m.data).length) := by
          rw [PostOfficeInput.receive, if_pos some, data, header, legal.take_data, overwrite_zero, List.append_assoc]
        have read : (s.receive.1.buffer.drop headerSize).take m.mailHdr.length.toNat = m.data := by
          rw [buffer', show headerSize = 12 from rfl, List.drop_left' (Header.length_bytes _), List.take_left' legal.data]
        have headers : Header.ofBytes s.receive.1.buffer = m.mailHdr := by rw [buffer', Header.ofBytes_append]
        have passes : 0 ≤ m.mailHdr.to'.toInt ∧ m.mailHdr.to'.toInt < numBoxes ∧ m.mailHdr.length.toNat ≤ maxMailSize := by
          refine ⟨legal.box, ?_, short⟩
          rw [toInt_of_nonneg legal.box]
          exact_mod_cast for'.box
        have taken : s.receive.2 = m.pktHdr := header
        have held : s.hand = [] := by rw [PostOfficeInput.hand, worker]
        simp only [headers, read, taken, if_pos passes]
        refine ⟨fun _ => Option.some_ne_none _, fun s' done => ?_⟩
        obtain rfl := Option.some.inj done
        refine ⟨⟨inbox, ?_, .empty rfl (.puts m rfl down), fun x mem => ?_, boxes⟩, fun socket b => ?_⟩
        · change s.receive.1.buffer.length = _
          rw [PostOfficeInput.receive, if_pos some, data, header, legal.take_data, length_overwrite (by rw [Nat.zero_add, buffer]; exact fits), buffer]
        · obtain rfl := List.mem_singleton.1 mem
          exact for'
        · rw [PostOfficeInput.account, PostOfficeInput.account, held, full, arrived_empty rfl, List.append_nil, List.nil_append]
          rfl

/-- `Receive` fails no assertion at a box that exists: it waits for the first mail, and takes it. -/
theorem PostOfficeInput.Sound.get (h : s.Sound host numBoxes) (box : Word) :
    (s.get numBoxes box = .fails ↔ ¬ BoxOf numBoxes box) ∧
      (s.get numBoxes box = .waits ↔ BoxOf numBoxes box ∧ s.boxes box.toNat = []) ∧
      ∀ s', s.get numBoxes box = .gets s' →
        s'.Sound host numBoxes ∧ ∀ socket b', s'.account socket b' = s.account socket b' := by
  by_cases exists' : BoxOf numBoxes box
  swap
  · have fails : s.get numBoxes box = .fails := if_neg exists'
    rw [fails]
    exact ⟨iff_of_true rfl exists', iff_of_false Getting.noConfusion fun h => exists' h.1, fun s' eq => by cases eq⟩
  have checked : s.get numBoxes box = _ := if_pos exists'
  rw [checked]
  generalize box.toNat = b
  cases box : s.boxes b with
  | nil =>
    exact ⟨iff_of_false Getting.noConfusion (not_not.2 exists'), iff_of_true rfl ⟨exists', rfl⟩, fun s' eq => by cases eq⟩
  | cons m later =>
    have legal := h.boxes b m (by rw [box]; exact List.mem_cons_self)
    have passes : m.mailHdr.length.toNat ≤ maxMailSize := legal.short
    simp only [if_pos passes]
    refine ⟨iff_of_false Getting.noConfusion (not_not.2 exists'),
      iff_of_false Getting.noConfusion fun h => List.cons_ne_nil m later h.2, fun s' done => ?_⟩
    obtain rfl := Getting.gets.inj done
    obtain ⟨inbox, buffer, buffered, hand, boxes⟩ := h
    refine ⟨⟨inbox, buffer, ?_, hand, fun b' x mem => ?_⟩, fun socket b' => ?_⟩
    · cases buffered with
      | empty none idle =>
        cases idle with
        | waits at' down => exact .empty none (.waits at' down)
        | puts m at' down => exact .empty none (.puts m at' down)
      | full m for' header data awake =>
        cases awake with
        | waits at' up => exact .full m for' header data (.waits at' up)
        | puts m' at' up => exact .full m for' header data (.puts m' at' up)
        | receives at' down => exact .full m for' header data (.receives at' down)
    · change x ∈ Function.update s.boxes b later b' at mem
      obtain rfl | ne := eq_or_ne b' b
      · rw [Function.update_self] at mem
        exact boxes b' x (by rw [box]; exact List.mem_cons_of_mem _ mem)
      · rw [Function.update_of_ne ne] at mem
        exact boxes b' x mem
    · rw [PostOfficeInput.account, PostOfficeInput.account]
      change Function.update s.received b (s.received b ++ [m]) b' ++ Function.update s.boxes b later b' ++ _ = _
      obtain rfl | ne := eq_or_ne b' b
      · rw [Function.update_self, Function.update_self, box, List.append_assoc (s.received b'), List.singleton_append]
        rfl
      · rw [Function.update_of_ne ne, Function.update_of_ne ne]
        rfl

end machine

/-! ## The network -/

section network

variable {numBoxes : Word → ℕ} {s s' : Network τ} {host : Word} {b : ℕ}

/-- What a step of the senders gives to the sockets: nothing, or the mail of a call that is under way. -/
theorem sent_of_step {g g' : Guarded τ SendCall SendPlace Unit (PostOfficeOutput τ)} {e : GuardedEvent τ SendCall SendEvent}
    (next : g.step (postOfficeOutput τ host) e = some g') : g'.state.sent = g.state.sent ∨
      ∃ t c heap packet, (g.place t).call = some c ∧ packet.Holds (c.mail host) ∧
        g'.state.sent = g.state.sent ++ [(c.mail host, wire heap packet)] := by
  cases e with
  | call t c =>
    rw [Guarded.step] at next
    split at next
    · obtain rfl := Option.some.inj next
      exact .inl rfl
    · cases next
  | environment e =>
    simp only [Guarded.step, Option.map_eq_some_iff] at next
    obtain ⟨state, moved, rfl⟩ := next
    cases e with
    | chance lost heap =>
      cases moved
      exact .inl rfl
    | interrupt =>
      obtain ⟨-, eq⟩ := Option.ite_none_left_eq_some.1 moved
      cases eq
      exact .inl rfl
  | run t =>
    rw [Guarded.step, Guarded.run] at next
    cases place : g.place t with
    | outside => simp [place] at next
    | acquire c =>
      simp only [place, Option.map_eq_some_iff] at next
      obtain ⟨_, -, rfl⟩ := next
      exact .inl rfl
    | acquired c =>
      simp only [place, Option.some.injEq] at next
      subst next
      exact .inl rfl
    | release c answer =>
      simp only [place, Option.ite_none_right_eq_some, Option.some.injEq] at next
      obtain ⟨-, rfl⟩ := next
      exact .inl rfl
    | signal c answer =>
      simp only [place, Option.some.injEq] at next
      subst next
      exact .inl rfl
    | inside c p =>
      simp only [place, Option.map_eq_some_iff] at next
      obtain ⟨⟨state, answer⟩, run, rfl⟩ := next
      cases p with
      | wait =>
        obtain ⟨⟨messageSent, passed⟩, -, eq⟩ := Option.map_eq_some_iff.1 run
        cases eq
        cases passed <;> exact .inl rfl
      | send =>
        obtain ⟨packet, prepared, rest⟩ := Option.bind_eq_some_iff.1 run
        obtain ⟨state', done, eq⟩ := Option.bind_eq_some_iff.1 rest
        cases eq
        obtain ⟨-, -, -, goes⟩ := sent_cases done
        cases goes with
        | lost _ lost => exact .inl lost
        | out _ goes => exact .inr ⟨t, c, _, packet, by rw [place]; rfl, prepare_holds prepared, goes⟩

/-- The invariant of the network. -/
structure Network.Sound (numBoxes : Word → ℕ) (s : Network τ) : Prop where
  output : ∀ h, Reach (guarded (postOfficeOutput τ h)) (Guarded.Calls (SendCall.Proper numBoxes h)) (s.output h)
  input : ∀ h, (s.input h).Sound h (numBoxes h)
  socket : ∀ h, ∀ d ∈ s.socket h, Datagram h (numBoxes h) d
  delivered : ∀ h b, (s.input h).account (s.socket h) b = s.log.filter fun m => m.pktHdr.to' = h ∧ m.box = b
  senders : ∀ h, (s.log.filter fun m => m.pktHdr.from' = h) = (s.output h).state.sent.map Prod.fst

theorem Network.Sound.initial (start : (network τ numBoxes).init s) : s.Sound numBoxes := by
  obtain ⟨output, socket, input, log⟩ := start
  refine ⟨fun h => .init (output h), fun h => ?_, fun h d mem => ?_, fun h b => ?_, fun h => ?_⟩
  · obtain ⟨inHdr, inbox, down, worker, buffer, boxes, -⟩ := input h
    refine ⟨inbox, buffer, .empty inHdr (.waits worker ?_), fun m mem => ?_, fun b m mem => ?_⟩
    · rw [down]
      exact ⟨rfl, .inl rfl⟩
    · rw [PostOfficeInput.hand, worker] at mem
      cases mem
    · rw [boxes b] at mem
      cases mem
  · rw [socket h] at mem
    cases mem
  · obtain ⟨inHdr, -, -, worker, -, boxes, received⟩ := input h
    rw [PostOfficeInput.account, received, boxes, socket, log, arrived_empty inHdr, PostOfficeInput.hand, worker]
    rfl
  · rw [log, (output h).1.2.2.2.1]
    rfl

/-- A machine moves on its own and loses nothing. -/
theorem Network.Sound.moved (h : s.Sound numBoxes) {input : PostOfficeInput} {socket : List (List Byte)} (sound : input.Sound host (numBoxes host))
    (good : ∀ d ∈ socket, Datagram host (numBoxes host) d) (same : ∀ b, input.account socket b = (s.input host).account (s.socket host) b) :
    Network.Sound numBoxes { s with input := Function.update s.input host input, socket := Function.update s.socket host socket } := by
  have at_host (P : Word → PostOfficeInput → List (List Byte) → Prop) (here : P host input socket)
      (others : ∀ h', P h' (s.input h') (s.socket h')) (h' : Word) :
      P h' (Function.update s.input host input h') (Function.update s.socket host socket h') := by
    obtain rfl | ne := eq_or_ne h' host
    · rwa [Function.update_self, Function.update_self]
    · rw [Function.update_of_ne ne, Function.update_of_ne ne]
      exact others h'
  refine ⟨h.output, ?_, ?_, ?_, h.senders⟩
  · exact at_host (fun h' input _ => input.Sound h' (numBoxes h')) sound h.input
  · exact at_host (fun h' _ socket => ∀ d ∈ socket, Datagram h' (numBoxes h') d) good h.socket
  · refine at_host (fun h' input socket => ∀ b, input.account socket b = s.log.filter fun m => m.pktHdr.to' = h' ∧ m.box = b) (fun b => ?_) h.delivered
    rw [same b]
    exact h.delivered host b

/-- What the senders of a machine give to the sockets arrives there. -/
theorem Network.Sound.transfer (h : s.Sound numBoxes) {e : GuardedEvent τ SendCall SendEvent}
    (proper : Guarded.Calls (SendCall.Proper numBoxes host) (s.output host) e) {out : Guarded τ SendCall SendPlace Unit (PostOfficeOutput τ)}
    (next : (s.output host).step (postOfficeOutput τ host) e = some out) : (s.transfer host out).Sound numBoxes := by
  have output (h' : Word) : Reach (guarded (postOfficeOutput τ h')) (Guarded.Calls (SendCall.Proper numBoxes h'))
      (Function.update s.output host out h') := by
    obtain rfl | ne := eq_or_ne h' host
    · rw [Function.update_self]
      exact (h.output h').step proper next
    · rw [Function.update_of_ne ne]
      exact h.output h'
  obtain still | ⟨t, c, heap, packet, call, holds, goes⟩ := sent_of_step next
  · have none : out.state.sent.drop (s.output host).state.sent.length = [] := by rw [still, List.drop_length]
    have same : s.transfer host out = { s with output := Function.update s.output host out } := by
      simp only [Network.transfer, none, List.filter_nil, List.map_nil, List.append_nil]
    rw [same]
    refine ⟨output, h.input, h.socket, h.delivered, fun h' => ?_⟩
    change _ = (Function.update s.output host out h').state.sent.map Prod.fst
    obtain rfl | ne := eq_or_ne h' host
    · rw [Function.update_self, still]
      exact h.senders h'
    · rw [Function.update_of_ne ne]
      exact h.senders h'
  · have new : out.state.sent.drop (s.output host).state.sent.length = [(c.mail host, wire heap packet)] := by
      rw [goes, List.drop_left]
    obtain ⟨calls, -⟩ := Guarded.serves_of_calls (h.output host)
    have for' : (c.mail host).For c.pktHdr.to' (numBoxes c.pktHdr.to') := ⟨holds.legal, rfl, (calls t c call).box⟩
    obtain ⟨-, rest, bytes⟩ := wire_holds heap holds
    have dest : (c.mail host).pktHdr.to' = c.pktHdr.to' := rfl
    have datagram : Datagram c.pktHdr.to' (numBoxes c.pktHdr.to') (wire heap packet) := ⟨_, rest, for', bytes⟩
    have read : Mail.ofWire (wire heap packet) = c.mail host := by rw [bytes, Mail.ofWire_append holds.legal]
    have socket (h' : Word) : (s.transfer host out).socket h' = s.socket h' ++ if c.pktHdr.to' = h' then [wire heap packet] else [] := by
      simp only [Network.transfer, new]
      by_cases here : c.pktHdr.to' = h'
      · rw [List.filter_cons_of_pos (by rw [dest]; exact decide_eq_true here), if_pos here]
        rfl
      · rw [List.filter_cons_of_neg (by rw [dest]; simpa using here), if_neg here]
        rfl
    have log : (s.transfer host out).log = s.log ++ [c.mail host] := by
      simp only [Network.transfer, new, List.map_cons, List.map_nil]
    refine ⟨output, h.input, fun h' d mem => ?_, fun h' b => ?_, fun h' => ?_⟩
    · rw [socket, List.mem_append] at mem
      obtain old | mem := mem
      · exact h.socket h' d old
      · by_cases here : c.pktHdr.to' = h'
        · rw [if_pos here, List.mem_singleton] at mem
          subst here mem
          exact datagram
        · rw [if_neg here] at mem
          cases mem
    · rw [socket, log, List.filter_append, ← h.delivered h' b]
      change (s.input h').account _ b = _
      rw [PostOfficeInput.account_append]
      congr 1
      by_cases here : c.pktHdr.to' = h'
      · rw [if_pos here, List.map_cons, read, List.map_nil]
        apply List.filter_congr
        rintro m mem
        obtain rfl := List.mem_singleton.1 mem
        rw [dest, decide_eq_decide]
        exact (and_iff_right here).symm
      · rw [if_neg here, List.filter_cons_of_neg (by rw [dest]; simp [here])]
        rfl
    · rw [log, List.filter_append, h.senders h']
      change _ = (Function.update s.output host out h').state.sent.map Prod.fst
      obtain rfl | ne := eq_or_ne h' host
      · rw [Function.update_self, goes, List.map_append, List.filter_cons_of_pos (by exact decide_eq_true rfl)]
        rfl
      · have other : ¬ (c.mail host).pktHdr.from' = h' := ne.symm
        rw [Function.update_of_ne ne, List.filter_cons_of_neg (by simpa using other), List.filter_nil, List.append_nil]

theorem Network.Sound.step (h : s.Sound numBoxes) {e : NetworkEvent τ} (proper : Proper numBoxes s e) (next : s.step numBoxes e = some s') :
    s'.Sound numBoxes := by
  cases e with
  | output host e =>
    obtain ⟨out, goes, rfl⟩ := Option.map_eq_some_iff.1 next
    exact h.transfer (fun t c eq => proper.sends host t c (by rw [eq])) goes
  | poll host =>
    obtain ⟨⟨input, socket⟩, goes, rfl⟩ := Option.map_eq_some_iff.1 next
    obtain ⟨input', socket', polled, sound, good, same⟩ := (h.input host).callBack (h.socket host)
    obtain ⟨rfl, rfl⟩ := Prod.mk.inj (Option.some.inj (polled.symm.trans goes))
    exact h.moved sound good same
  | work host =>
    obtain ⟨input, goes, rfl⟩ := Option.map_eq_some_iff.1 next
    obtain ⟨sound, same⟩ := (h.input host).work.2 input goes
    have moved := h.moved sound (h.socket host) (same _)
    rwa [Function.update_eq_self] at moved
  | receive host box =>
    obtain ⟨input, goes, rfl⟩ := Option.map_eq_some_iff.1 next
    obtain ⟨sound, same⟩ := ((h.input host).get box).2.2 input (Getting.taken_eq goes)
    have moved := h.moved sound (h.socket host) (same _)
    rwa [Function.update_eq_self] at moved

/-- **Mail is delivered once, in order and as it was sent.** In every run of a network whose threads send to and receive from boxes
that exist, no assertion of the receiving side fails, the postal worker does not sleep on a packet, and a thread waits
at an empty box only; for each box, what was received, what is in the box and what is on its way are the mails for it that were
given to the sockets, in that order; and these are, for each machine, the mails of the calls of `Send` that have reached the
network, in the order of the calls, less those that it lost. -/
theorem network_delivers (reach : Reach (network τ numBoxes) (Proper numBoxes) s) :
    (∀ h, (s.input h).callBack h (s.socket h) ≠ none ∧ ((s.input h).worker ≠ .wait → (s.input h).work (numBoxes h) ≠ none) ∧
        (∀ box, BoxOf (numBoxes h) box → (s.input h).get (numBoxes h) box ≠ .fails ∧
          ((s.input h).get (numBoxes h) box = .waits ↔ (s.input h).boxes box.toNat = [])) ∧
        ((s.input h).inHdr.length ≠ 0 → () ∉ (s.input h).messageAvailable.queue)) ∧
      (∀ h b, (s.input h).received b ++ (s.input h).boxes b ++ (s.onTheWay h).filter (fun m => m.box = b) =
        s.log.filter fun m => m.pktHdr.to' = h ∧ m.box = b) ∧
      ∀ h, Posted h (s.output h) ∧ (s.log.filter fun m => m.pktHdr.from' = h) = (s.output h).state.kept := by
  have sound : s.Sound numBoxes :=
    reach.invariant (Network.Sound numBoxes) (fun _ => .initial) fun _ _ _ sound proper next => sound.step proper next
  refine ⟨fun h => ⟨?_, (sound.input h).work.1, fun box inRange => ⟨?_, ?_⟩, fun some => ?_⟩, sound.delivered, fun h => ?_⟩
  · obtain ⟨input, socket, polled, -⟩ := (sound.input h).callBack (sound.socket h)
    rw [polled]
    exact Option.some_ne_none _
  · exact fun fails => ((sound.input h).get box).1.1 fails inRange
  · rw [((sound.input h).get box).2.1]
    exact and_iff_right inRange
  · cases (sound.input h).buffered with
    | empty none _ => exact absurd none some
    | full _ _ _ _ awake =>
      cases awake with
      | waits _ at' | puts _ _ at' | receives _ at' =>
        rw [at']
        exact List.not_mem_nil
  · have posted := posted_of_reach ((sound.output h).mono fun _ _ _ proper t c call => (proper t c call).legal)
    exact ⟨posted, (sound.senders h).trans posted.sent⟩

/-- Machine 1 sends three mails to boxes of machine 2: the first one is received there, the second is with the postal worker, and
the third is lost. -/
def exchange : List (NetworkEvent Bool) :=
  [.output 1 (.call true (hello 2 0)), .output 1 (.run true), .output 1 (.run true), .work 2, .output 1 (.run true), .output 1 (.call false (hello 2 1)),
    .output 1 (.environment .interrupt), .poll 2, .output 1 (.run true), .output 1 (.run true), .output 1 (.run true), .output 1 (.run false),
    .output 1 (.run false), .output 1 (.run false), .poll 2, .work 2, .work 2, .poll 2, .work 2, .receive 2 0, .work 2, .work 2,
    .output 1 (.environment .interrupt), .output 1 (.run false), .output 1 (.run false), .output 1 (.run false),
    .output 1 (.environment (.chance true fun _ => 0xab)), .output 1 (.call true (hello 2 1)), .output 1 (.run true), .output 1 (.run true), .output 1 (.run true)]

/-- The machines when they start. -/
def quietNetwork : Network τ :=
  ⟨fun _ => quietOutput, fun _ => [], fun _ => ⟨⟨0, 0, 0⟩, tabulate 52 fun _ => 0xee, ⟨0, []⟩, .wait, tabulate 52 fun _ => 0xee, fun _ => [], fun _ => []⟩, []⟩

theorem network_delivers_exchange : ∃ s : Network Bool, (s.input 2).received 0 = [(hello 2 0).mail 1] ∧
    (s.onTheWay 2).filter (fun m => m.box = 1) = [(hello 2 1).mail 1] ∧
    (s.output 1).state.handed = [((hello 2 0).mail 1, false), ((hello 2 1).mail 1, false), ((hello 2 1).mail 1, true)] ∧
    (s.input 2).get 2 1 = .waits ∧
    (∀ h b, (s.input h).received b ++ (s.input h).boxes b ++ (s.onTheWay h).filter (fun m => m.box = b) =
      s.log.filter fun m => m.pktHdr.to' = h ∧ m.box = b) ∧
    ∀ h, Posted h (s.output h) ∧ (s.log.filter fun m => m.pktHdr.from' = h) = (s.output h).state.kept := by
  have start : Reach (network Bool fun _ => 2) (Proper fun _ => 2) quietNetwork :=
    .init ⟨fun _ => ⟨⟨rfl, rfl, rfl, rfl, rfl⟩, rfl, rfl, fun _ => rfl, rfl⟩, fun _ => rfl,
      fun _ => ⟨rfl, rfl, rfl, rfl, rfl, fun _ => rfl, fun _ => rfl⟩, rfl⟩
  obtain ⟨s, reach, received, way, handed, waits⟩ : ∃ s, Reach (network Bool fun _ => 2) (Proper fun _ => 2) s ∧
      (s.input 2).received 0 = [(hello 2 0).mail 1] ∧ (s.onTheWay 2).filter (fun m => m.box = 1) = [(hello 2 1).mail 1] ∧
      (s.output 1).state.handed = [((hello 2 0).mail 1, false), ((hello 2 1).mail 1, false), ((hello 2 1).mail 1, true)] ∧
      (s.input 2).boxes 1 = [] := by
    refine ⟨_, start.events (Network.step _) (fun _ _ _ next => next) exchange ?_ rfl, rfl, rfl, rfl, rfl⟩
    refine fun s e mem => ⟨?_, ?_⟩
    · rintro host t c rfl
      simp only [exchange, List.mem_cons, NetworkEvent.output.injEq, GuardedEvent.call.injEq, List.not_mem_nil, or_false, reduceCtorEq, false_or,
        and_false] at mem
      obtain ⟨rfl, rfl, rfl⟩ | ⟨rfl, rfl, rfl⟩ | ⟨rfl, rfl, rfl⟩ := mem <;> exact ⟨rfl, by decide⟩
    · rintro host box rfl
      simp only [exchange, List.mem_cons, NetworkEvent.receive.injEq, List.not_mem_nil, or_false, reduceCtorEq, false_or] at mem
      obtain ⟨rfl, rfl⟩ := mem
      decide
  obtain ⟨safe, delivered, posted⟩ := network_delivers reach
  exact ⟨s, received, way, handed, ((safe 2).2.2.1 1 (by decide)).2.2 waits, delivered, posted⟩

end network

end Nachos.Devices
