import Nachos.Devices.Guarded
import Nachos.Devices.Mail

/-!
# Sending mail

`PostOfficeOutput` of `network/post.cc` over `NetworkOutput` of `machine/network.cc`. Any number of threads send; one
packet at a time is with the network, and its sender waits for the interrupt, whether the packet was lost or not.
-/

namespace Nachos.Devices
open Bytes Transition
open Nachos.Mp1 (Semaphore)

/-- The arguments of `Send`, and what `new` finds in the buffer. -/
structure SendCall where
  pktHdr : PacketHeader
  mailHdr : MailHeader
  data : List Byte
  heap : ℕ → Byte

/-- The mail that a call is to send. -/
def SendCall.mail (hostName : Word) (c : SendCall) : Mail := .sent hostName c.pktHdr c.mailHdr c.data

def SendCall.packet (hostName : Word) (c : SendCall) : Option Packet := prepare hostName c.heap c.pktHdr c.mailHdr c.data

/-- `pending` counts the interrupts that are scheduled; `lost` is what the random number will say of the next packet, and `heap` what
`new` will find; `sent` is what has been given to the sockets. `handed` are the mails that have reached the network, each
with whether it was lost. -/
structure PostOfficeOutput (τ : Type) where
  sendBusy : Bool
  pending : ℕ
  messageSent : Semaphore τ
  lost : Bool
  heap : ℕ → Byte
  sent : List (Mail × List Byte)
  handed : List (Mail × Bool)

inductive SendPlace where
  /-- Before `network->Send`. -/
  | send
  /-- In `messageSent->P()`. -/
  | wait

inductive SendEvent where
  | interrupt
  | chance (lost : Bool) (heap : ℕ → Byte)

variable {τ : Type}

namespace PostOfficeOutput

/-- `NetworkOutput::Send`; none if the `ASSERT` fails. -/
def send (hostName : Word) (s : PostOfficeOutput τ) (mail : Mail) (packet : Packet) : Option (PostOfficeOutput τ) :=
  if s.sendBusy = false ∧ 0 < packet.1.length.toNat ∧ packet.1.length.toNat ≤ maxPacketSize ∧ packet.1.from' = hostName then
    some { s with
      pending := s.pending + 1, sent := if s.lost then s.sent else s.sent ++ [(mail, wire s.heap packet)]
      handed := s.handed ++ [(mail, s.lost)] }
  else none

/-- `PostOfficeOutput::Send` between `Acquire` and `Release`. The packet is that of the caller's own buffer. -/
def run [DecidableEq τ] (hostName : Word) (s : PostOfficeOutput τ) (t : τ) (c : SendCall) : SendPlace → Option (PostOfficeOutput τ × (SendPlace ⊕ Unit))
  | .send => do
    let packet ← c.packet hostName
    let s ← s.send hostName (c.mail hostName) packet
    pure (s, .inl .wait)
  | .wait => (P s.messageSent t).map fun r => ({ s with messageSent := r.1 }, if r.2 then .inr () else .inl .wait)

/-- `NetworkOutput::CallBack` with `PostOfficeOutput::CallBack`, and what is outside the program. -/
def environment (s : PostOfficeOutput τ) : SendEvent → Option (PostOfficeOutput τ)
  | .interrupt =>
    if s.pending = 0 then none else some { s with pending := s.pending - 1, sendBusy := false, messageSent := s.messageSent.V }
  | .chance lost heap => some { s with lost, heap }

end PostOfficeOutput

def postOfficeOutput (τ : Type) [DecidableEq τ] (hostName : Word) : Service τ SendCall SendPlace Unit (PostOfficeOutput τ) SendEvent where
  start s := s.sendBusy = false ∧ s.pending = 0 ∧ s.messageSent = ⟨0, []⟩ ∧ s.sent = [] ∧ s.handed = []
  first _ := .send
  run := PostOfficeOutput.run hostName
  environment := PostOfficeOutput.environment

/-- The `ASSERT`s of `Send` hold of the arguments. -/
def SendCall.Legal (hostName : Word) (c : SendCall) : Prop := (c.packet hostName).isSome

/-- The call whose packet is with the network. -/
def sending : Option (τ × SendCall × SendPlace) → List SendCall
  | some (_, c, .wait) => [c]
  | _ => []

/-- The network interface, by the place of the thread inside. -/
def PostOfficeOutput.Device (s : PostOfficeOutput τ) : Option (τ × SendCall × SendPlace) → Prop
  | some (t, _, .wait) => s.pending = 1 ∧ Down s.messageSent t ∨ s.pending = 0 ∧ s.messageSent = ⟨1, []⟩
  | _ => s.pending = 0 ∧ s.messageSent = ⟨0, []⟩

/-- The mails that have reached the network and were not lost. -/
def PostOfficeOutput.kept (s : PostOfficeOutput τ) : List Mail := (s.handed.filter fun d => !d.2).map Prod.fst

/-- Senders at work: each call has handed its mail to the network, in order, and what was not lost has gone out, as
the wire has it. -/
structure Sends (hostName : Word) (u : Serving τ SendCall SendPlace Unit (PostOfficeOutput τ)) : Prop where
  idle : u.state.sendBusy = false
  device : u.state.Device u.inside
  handed : u.state.handed.map Prod.fst = (u.served.map Prod.fst ++ sending u.inside).map (SendCall.mail hostName)
  sent : u.state.sent.map Prod.fst = u.state.kept
  wires : ∀ d ∈ u.state.sent, d.1.Legal ∧ d.1.pktHdr.from' = hostName ∧ d.2.length = maxWireSize ∧ ∃ rest, d.2 = d.1.bytes ++ rest

section sends

variable {hostName : Word} {s s' : PostOfficeOutput τ} {c : SendCall} {packet : Packet}

/-- A packet of a mail passes the `ASSERT` of the network. -/
theorem send_isSome (idle : s.sendBusy = false) (holds : packet.Holds (c.mail hostName)) :
    s.send hostName (c.mail hostName) packet = some { s with
      pending := s.pending + 1, sent := if s.lost then s.sent else s.sent ++ [(c.mail hostName, wire s.heap packet)]
      handed := s.handed ++ [(c.mail hostName, s.lost)] } := by
  have length := holds.legal.toNat_length
  have short := holds.legal.short
  refine if_pos ⟨idle, ?_, ?_, ?_⟩
  · rw [holds.header, length]
    exact Nat.succ_pos _
  · rw [holds.header, length]
    change _ ≤ 52
    omega
  · rw [holds.header]
    rfl

/-- The ways of a mail on the network. -/
inductive Goes (s s' : PostOfficeOutput τ) (mail : Mail) (d : List Byte) : Prop where
  | lost (handed : s'.handed = s.handed ++ [(mail, true)]) (sent : s'.sent = s.sent)
  | out (handed : s'.handed = s.handed ++ [(mail, false)]) (sent : s'.sent = s.sent ++ [(mail, d)])

/-- A call hands over its mail; the packet is lost or goes out. -/
theorem sent_cases (done : s.send hostName (c.mail hostName) packet = some s') :
    s'.sendBusy = s.sendBusy ∧ s'.pending = s.pending + 1 ∧ s'.messageSent = s.messageSent ∧
      Goes s s' (c.mail hostName) (wire s.heap packet) := by
  obtain ⟨-, rfl⟩ := Option.ite_none_right_eq_some.1 done |>.imp_right Option.some.inj
  refine ⟨rfl, rfl, rfl, ?_⟩
  cases s.lost with
  | true => exact .lost rfl rfl
  | false => exact .out rfl rfl

variable {mail : Mail} {d : List Byte}

theorem Goes.handed (h : Goes s s' mail d) : s'.handed.map Prod.fst = s.handed.map Prod.fst ++ [mail] := by
  cases h with
  | lost handed _ | out handed _ => rw [handed, List.map_append, List.map_singleton]

theorem Goes.sent (h : Goes s s' mail d) (kept : s.sent.map Prod.fst = s.kept) : s'.sent.map Prod.fst = s'.kept := by
  cases h with
  | lost handed sent =>
    rw [PostOfficeOutput.kept, handed, sent, List.filter_append, List.filter_cons_of_neg (by exact Bool.false_ne_true), List.filter_nil, List.append_nil]
    exact kept
  | out handed sent =>
    rw [PostOfficeOutput.kept, handed, sent, List.filter_append, List.filter_cons_of_pos rfl, List.filter_nil, List.map_append, List.map_append, kept]
    rfl

theorem Sends.stepped [DecidableEq τ] {u u' : Serving τ SendCall SendPlace Unit (PostOfficeOutput τ)} (h : Sends hostName u)
    (next : Service.Stepped (postOfficeOutput τ hostName) (SendCall.Legal hostName) u u') : Sends hostName u' := by
  obtain ⟨idle, device, handed, sent, wires⟩ := h
  cases next with
  | enter t c free _ =>
    rw [free] at device handed
    exact ⟨idle, device, handed, sent, wires⟩
  | @go t c p q state inside run =>
    rw [inside] at device handed
    cases p with
    | send =>
      obtain ⟨packet, prepared, rest⟩ := Option.bind_eq_some_iff.1 run
      obtain ⟨s', done, eq⟩ := Option.bind_eq_some_iff.1 rest
      cases eq
      obtain ⟨busy, pending, semaphore, goes⟩ := sent_cases done
      have holds := prepare_holds prepared
      obtain ⟨none, down⟩ := device
      refine ⟨busy.trans idle, .inl ⟨?_, ?_⟩, ?_, goes.sent sent, ?_⟩
      · rw [pending, none]
      · rw [semaphore, down]
        exact ⟨rfl, .inl rfl⟩
      · change state.handed.map _ = (u.served.map Prod.fst ++ [c]).map _
        rw [goes.handed, handed, List.map_append, List.map_append, List.append_assoc]
        rfl
      · cases goes with
        | lost _ same =>
          rw [same]
          exact wires
        | out _ out =>
          rw [out]
          intro d mem
          obtain old | new := List.mem_append.1 mem
          · exact wires d old
          · obtain rfl := List.mem_singleton.1 new
            exact ⟨holds.legal, rfl, wire_holds _ holds⟩
    | wait =>
      obtain ⟨⟨messageSent, passed⟩, done, eq⟩ := Option.map_eq_some_iff.1 run
      obtain ⟨rfl, down, down'⟩ | ⟨rfl, -, -⟩ := P_cases done (device.imp And.right And.right)
      · cases eq
        obtain ⟨pending, -⟩ | ⟨-, up⟩ := device
        · exact ⟨idle, .inl ⟨pending, down'⟩, handed, sent, wires⟩
        · rw [up] at down
          cases down.1
      · cases eq
  | @done t c p answer state inside run =>
    rw [inside] at device handed
    cases p with
    | send =>
      obtain ⟨packet, -, rest⟩ := Option.bind_eq_some_iff.1 run
      obtain ⟨s', -, eq⟩ := Option.bind_eq_some_iff.1 rest
      cases eq
    | wait =>
      obtain ⟨⟨messageSent, passed⟩, done, eq⟩ := Option.map_eq_some_iff.1 run
      obtain ⟨rfl, -, -⟩ | ⟨rfl, up, taken⟩ := P_cases done (device.imp And.right And.right)
      · cases eq
      · cases eq
        obtain ⟨-, down⟩ | ⟨none, -⟩ := device
        · rw [up] at down
          cases down.1
        · refine ⟨idle, ⟨none, taken⟩, ?_, sent, wires⟩
          change u.state.handed.map _ = ((u.served ++ [(c, ())]).map Prod.fst ++ []).map _
          rw [List.append_nil, List.map_append]
          exact handed
  | environment e run =>
    cases e with
    | chance lost heap =>
      cases run
      refine ⟨idle, ?_, handed, sent, wires⟩
      generalize u.inside = inside at device
      cases inside with
      | none => exact device
      | some x =>
        obtain ⟨t, c, p⟩ := x
        cases p <;> exact device
    | interrupt =>
      obtain ⟨some, eq⟩ := Option.ite_none_left_eq_some.1 run
      cases eq
      refine ⟨rfl, ?_, handed, sent, wires⟩
      generalize u.inside = inside at device
      cases inside with
      | none => exact absurd device.1 some
      | some x =>
        obtain ⟨t, c, p⟩ := x
        cases p with
        | send => exact absurd device.1 some
        | wait =>
          obtain ⟨one, down⟩ | ⟨none, -⟩ := device
          · refine .inr ⟨?_, down.V⟩
            change u.state.pending - 1 = 0
            rw [one]
          · exact absurd none some

theorem sends_of_reach [DecidableEq τ] {u : Serving τ SendCall SendPlace Unit (PostOfficeOutput τ)}
    (reach : Reach (postOfficeOutput τ hostName).alone (Service.Enters (SendCall.Legal hostName)) u) : Sends hostName u := by
  refine Service.invariant (Sends hostName) ?_ (fun u u' sends => sends.stepped) reach
  rintro state ⟨idle, none, down, nothing, handed⟩
  refine ⟨idle, ⟨none, down⟩, ?_, ?_, ?_⟩
  · rw [handed]
    rfl
  · rw [nothing, PostOfficeOutput.kept, handed]
    rfl
  · rw [nothing]
    exact fun d mem => nomatch mem

end sends

section threads

variable [DecidableEq τ] {hostName : Word} {s : Guarded τ SendCall SendPlace Unit (PostOfficeOutput τ)}

/-- What the calls have made of their mails: those handed to the network are the mails of the calls that are served and of the
one that waits for the interrupt, and those given to the sockets are these less the lost ones. -/
structure Posted (hostName : Word) (s : Guarded τ SendCall SendPlace Unit (PostOfficeOutput τ)) : Prop where
  waiting : ∀ t c, s.place t = .inside c .wait →
    s.state.handed.map Prod.fst = (s.served.map Prod.fst ++ [c]).map (SendCall.mail hostName)
  none : (∀ t c, s.place t ≠ .inside c .wait) → s.state.handed.map Prod.fst = (s.served.map Prod.fst).map (SendCall.mail hostName)
  sent : s.state.sent.map Prod.fst = s.state.kept

theorem Sends.posted {u : Serving τ SendCall SendPlace Unit (PostOfficeOutput τ)} (h : Sends hostName u) (serves : s.Serves u) :
    Posted hostName s := by
  obtain ⟨-, -, handed, sent, -⟩ := h
  rw [← serves.state, ← serves.served] at handed
  rw [← serves.state] at sent
  refine ⟨fun t c at_t => ?_, fun nobody => ?_, sent⟩
  · rw [serves.inside at_t] at handed
    exact handed
  · have idle : sending u.inside = [] := by
      cases inside : u.inside with
      | none => rfl
      | some x =>
        obtain ⟨t, c, p⟩ := x
        cases p with
        | send => rfl
        | wait => exact absurd (serves.place inside) (nobody t c)
    rw [handed, idle, List.append_nil]

theorem posted_of_reach (reach : Reach (guarded (postOfficeOutput τ hostName)) (Guarded.Calls (SendCall.Legal hostName)) s) :
    Posted hostName s := by
  obtain ⟨-, u, alone, serves⟩ := Guarded.serves_of_calls reach
  exact (sends_of_reach alone).posted serves

/-- **One packet at a time.** In every interleaving of calls whose arguments pass the `ASSERT`s of `Send`, no assertion of the network or of
the lock fails; a sender that waits is woken, by the one interrupt that is scheduled; each call hands its mail to the network,
in the order in which they took the lock, and what goes to the sockets are exactly the mails that were not lost,
each padded to `MaxWireSize`. -/
theorem postOfficeOutput_sends (reach : Reach (guarded (postOfficeOutput τ hostName)) (Guarded.Calls (SendCall.Legal hostName)) s) :
    (∀ t c, s.place t = .inside c .send → s.run (postOfficeOutput τ hostName) t ≠ none) ∧
      (∀ t c answer, s.place t = .release c answer → s.lockHolder = some t) ∧
      (∀ t c, s.place t = .inside c .wait →
        s.state.pending = 1 ∨ s.state.pending = 0 ∧ s.state.messageSent.value = 1 ∧ t ∉ s.state.messageSent.queue) ∧
      Posted hostName s ∧ ∀ d ∈ s.state.sent, d.2.length = maxWireSize ∧ Mail.ofWire d.2 = d.1 := by
  obtain ⟨calls, u, alone, serves⟩ := Guarded.serves_of_calls reach
  have sends := sends_of_reach alone
  refine ⟨fun t c at_t => ?_, fun t c answer at_t => serves.holder at_t, fun t c at_t => ?_, sends.posted serves, fun d mem => ?_⟩
  · obtain ⟨packet, prepared⟩ := Option.isSome_iff_exists.1 (calls t c (by rw [at_t]; rfl))
    have idle := sends.idle
    rw [← serves.state] at idle
    have goes := send_isSome idle (prepare_holds prepared)
    simp only [Guarded.run, at_t, postOfficeOutput, PostOfficeOutput.run, prepared, Option.bind_eq_bind, Option.bind_some, goes]
    exact Option.some_ne_none _
  · have device := sends.device
    rw [serves.inside at_t] at device
    rw [serves.state]
    obtain ⟨one, -⟩ | ⟨none, up⟩ := device
    · exact .inl one
    · rw [up]
      exact .inr ⟨none, rfl, List.not_mem_nil⟩
  · rw [serves.state] at mem
    obtain ⟨legal, -, length, rest, bytes⟩ := sends.wires d mem
    exact ⟨length, by rw [bytes, Mail.ofWire_append legal]⟩

/-- A message of three bytes. -/
def hello (dest box : Word) : SendCall := ⟨⟨dest, 0, 0⟩, ⟨box, 9, 3⟩, [104, 105, 33], fun _ => 0xcd⟩

/-- Two threads send; the first packet is lost. -/
def twoSends : List (GuardedEvent Bool SendCall SendEvent) :=
  [.call true (hello 2 0), .run true, .run true, .environment (.chance true fun _ => 0xab), .call false (hello 2 1), .run false, .run true, .run true,
    .environment .interrupt, .run true, .run true, .run true, .run false, .run false, .environment (.chance false fun _ => 0xab), .run false]

/-- The interface before the first call. -/
def quietOutput : Guarded τ SendCall SendPlace Unit (PostOfficeOutput τ) :=
  ⟨⟨false, 0, ⟨0, []⟩, false, fun _ => 0, [], []⟩, ⟨1, []⟩, none, fun _ => .outside, []⟩

theorem postOfficeOutput_sends_twoSends : ∃ s : Guarded Bool SendCall SendPlace Unit (PostOfficeOutput Bool),
    s.state.handed = [((hello 2 0).mail 1, true), ((hello 2 1).mail 1, false)] ∧ s.state.sent.map Prod.fst = [(hello 2 1).mail 1] ∧
      Posted 1 s ∧ ∀ d ∈ s.state.sent, d.2.length = maxWireSize ∧ Mail.ofWire d.2 = d.1 := by
  have start : Reach (guarded (postOfficeOutput Bool 1)) (Guarded.Calls (SendCall.Legal 1)) quietOutput :=
    .init ⟨⟨rfl, rfl, rfl, rfl, rfl⟩, rfl, rfl, fun _ => rfl, rfl⟩
  obtain ⟨s, reach, handed, sent⟩ : ∃ s, Reach (guarded (postOfficeOutput Bool 1)) (Guarded.Calls (SendCall.Legal 1)) s ∧
      s.state.handed = [((hello 2 0).mail 1, true), ((hello 2 1).mail 1, false)] ∧ s.state.sent.map Prod.fst = [(hello 2 1).mail 1] := by
    refine ⟨_, start.events (Guarded.step _) (fun _ _ _ next => next) twoSends ?_ rfl, rfl, rfl⟩
    rintro s e mem t c rfl
    simp only [twoSends, List.mem_cons, GuardedEvent.call.injEq, List.not_mem_nil, or_false, reduceCtorEq, false_or] at mem
    obtain ⟨rfl, rfl⟩ | ⟨rfl, rfl⟩ := mem <;> exact rfl
  exact ⟨s, handed, sent, (postOfficeOutput_sends reach).2.2.2⟩

end threads

end Nachos.Devices
