import Nachos.Devices.PostOffice
import Nachos.Mp3.SynchListProgress

/-!
# Mailboxes

The boxes of `network/post.cc` as they are: a `SynchList` of `Mail` objects each, to which the postal worker appends
and from which threads remove, and all of them can be preempted between any two statements. Where `PostOffice` has one
step, a call of `Put` or `Get` goes through the code of the list; what comes of it is a run of that network.
-/

namespace Nachos.Devices
open Bytes Transition
open Nachos.Mp1 (Semaphore)
open Nachos.Mp3.SynchList (appended taken)

/-- A machine. `messages` are the lists of the boxes; their items are the addresses of `Mail` objects, and `mails` are the objects in the
order of their `new`. The thread `none` is the postal worker. -/
structure MailRoom (τ : Type) where
  inHdr : PacketHeader
  inbox : List Byte
  messageAvailable : Semaphore Unit
  worker : WorkerPlace
  buffer : List Byte
  messages : Mp3.SynchList.State (Option τ) ℕ ℕ
  mails : List Mail

variable {τ : Type}

namespace MailRoom

/-- What is in front of the boxes. -/
def front (s : MailRoom τ) : PostOfficeInput :=
  ⟨s.inHdr, s.inbox, s.messageAvailable, s.worker, s.buffer, fun _ => [], fun _ => []⟩

def setFront (s : MailRoom τ) (o : PostOfficeInput) : MailRoom τ :=
  { s with inHdr := o.inHdr, inbox := o.inbox, messageAvailable := o.messageAvailable, worker := o.worker, buffer := o.buffer }

def callBack (hostName : Word) (s : MailRoom τ) (sock : List (List Byte)) : Option (MailRoom τ × List (List Byte)) :=
  (s.front.callBack hostName sock).map fun r => (s.setFront r.1, r.2)

/-- A call of a function of the lists, or its next statement. -/
def list [DecidableEq τ] (s : MailRoom τ) (e : Mp3.SynchList.Event (Option τ) ℕ ℕ) : Option (MailRoom τ) :=
  (s.messages.step e).map fun messages => { s with messages }

/-- The next step of `PostalDelivery`: none if the worker sleeps, or if an `ASSERT` fails. -/
def work [DecidableEq τ] (numBoxes : ℕ) (s : MailRoom τ) : Option (MailRoom τ) :=
  match s.messages.place none, s.worker with
  | some _, _ => s.list (.run none)
  | none, .put m =>
    -- `new Mail(pktHdr, mailHdr, data)`, and `messages->Append(mail)` is called
    if m.mailHdr.length.toNat ≤ maxMailSize then
      list { s with mails := s.mails ++ [m], worker := .wait } (.call none (.append m.box s.mails.length))
    else none
  | none, .wait | none, .receive => (s.front.work numBoxes).map s.setFront

/-- `PostOfficeInput::Receive` up to the call of `messages->RemoveFront()`. -/
def receive [DecidableEq τ] (numBoxes : ℕ) (s : MailRoom τ) (t : τ) (box : Word) : Option (MailRoom τ) :=
  if BoxOf numBoxes box then s.list (.call (some t) (.removeFront box.toNat)) else none

/-! ## The boxes as lists of mail -/

/-- The mail of a `Put` that has not taken effect. -/
def putting (s : MailRoom τ) : Option Mail :=
  match s.messages.calls none with
  | some (.append _ p, none) => s.mails[p]?
  | _ => none

def contents (s : MailRoom τ) (b : ℕ) : List Mail := (s.messages.list b).filterMap (s.mails[·]?)

def received (s : MailRoom τ) (b : ℕ) : List Mail :=
  ((s.messages.log.map Prod.snd).filterMap (taken b)).filterMap (s.mails[·]?)

/-- The machine as `PostOffice` has it. -/
def office (s : MailRoom τ) : PostOfficeInput :=
  { s.front with worker := (s.putting.map WorkerPlace.put).getD s.worker, boxes := s.contents, received := s.received }

end MailRoom

/-- The machines and their sockets; `log` is what has been given to the sockets. -/
structure MailRooms (τ : Type) where
  output : Word → Guarded τ SendCall SendPlace Unit (PostOfficeOutput τ)
  socket : Word → List (List Byte)
  input : Word → MailRoom τ
  log : List Mail

inductive MailEvent (τ : Type) where
  | output (host : Word) (e : GuardedEvent τ SendCall SendEvent)
  | poll (host : Word)
  | work (host : Word)
  /-- A thread calls `Receive`, or takes its next step there. -/
  | receive (host : Word) (t : τ) (box : Word)
  | run (host : Word) (t : τ)

namespace MailRooms

/-- The network of `PostOffice`. -/
def network (s : MailRooms τ) : Network τ := ⟨s.output, s.socket, fun h => (s.input h).office, s.log⟩

def setInput (s : MailRooms τ) (host : Word) (input : MailRoom τ) : MailRooms τ := { s with input := Function.update s.input host input }

variable [DecidableEq τ]

def step (numBoxes : Word → ℕ) (s : MailRooms τ) : MailEvent τ → Option (MailRooms τ)
  | .output host e => ((s.output host).step (postOfficeOutput τ host) e).map fun out =>
      let sent := s.network.transfer host out
      { s with output := sent.output, socket := sent.socket, log := sent.log }
  | .poll host => ((s.input host).callBack host (s.socket host)).map fun r =>
      { s.setInput host r.1 with socket := Function.update s.socket host r.2 }
  | .work host => ((s.input host).work (numBoxes host)).map (s.setInput host)
  | .receive host t box => ((s.input host).receive (numBoxes host) t box).map (s.setInput host)
  | .run host t => ((s.input host).list (.run (some t))).map (s.setInput host)

end MailRooms

/-- The network with synchronized lists as boxes. -/
def mailRooms (τ : Type) [DecidableEq τ] (numBoxes : Word → ℕ) : System (MailRooms τ) (MailEvent τ) where
  init s := (network τ numBoxes).init s.network ∧ ∀ h, (s.input h).messages = .initial ∧ (s.input h).mails = []
  step s e s' := s.step numBoxes e = some s'

/-- Threads send to boxes that exist, and receive from such boxes. -/
structure MailProper (numBoxes : Word → ℕ) (_ : MailRooms τ) (e : MailEvent τ) : Prop where
  sends : ∀ host t c, e = .output host (.call t c) → c.Proper numBoxes host
  receives : ∀ host t box, e = .receive host t box → BoxOf (numBoxes host) box

namespace MailRoom

/-- The addresses that have been appended to the list of a box. -/
def put (s : MailRoom τ) (b : ℕ) : List ℕ := (s.messages.log.map Prod.snd).filterMap (appended b)

/-- A `Put` that has not taken effect: its object is in no list. -/
structure Pending (s : MailRoom τ) (b p : ℕ) : Prop where
  mail : ∃ m, s.mails[p]? = some m ∧ m.box = b
  new : ∀ b', p ∉ s.put b'

variable [DecidableEq τ]

/-- The worker appends new objects, and threads remove from boxes that exist. -/
structure Kept (numBoxes : ℕ) (s : MailRoom τ) : Prop where
  reach : Reach (Mp3.SynchList.system (Option τ) ℕ ℕ) (fun _ _ => True) s.messages
  worker : ∀ c a, s.messages.calls none = some (c, a) → s.worker = .wait ∧ ∃ b p, c = .append b p ∧ (a = none → s.Pending b p)
  receivers : ∀ t c a, s.messages.calls (some t) = some (c, a) → ∃ box, BoxOf numBoxes box ∧ c = .removeFront box.toNat
  old : ∀ b, ∀ p ∈ s.put b, p < s.mails.length
  short : ∀ m ∈ s.mails, m.mailHdr.length.toNat ≤ maxMailSize

/-- What `PostOffice` sees of a step. -/
inductive Shows (numBoxes : ℕ) (o o' : PostOfficeInput) : Prop where
  | still (same : o' = o)
  | works (step : o.work numBoxes = some o')
  | gets (box : Word) (exists' : BoxOf numBoxes box) (step : o.get numBoxes box = .gets o')

section kept

variable {numBoxes : ℕ} {s s' : MailRoom τ} {t : Option τ} {b p : ℕ}

/-- The items of a list, and those taken from it, have been appended there. -/
theorem Kept.fifo (h : s.Kept numBoxes) (b : ℕ) :
    s.put b = (s.messages.log.map Prod.snd).filterMap (taken b) ++ s.messages.list b :=
  Mp3.SynchList.fifo (Mp3.SynchList.State.runs_of_reach h.reach).1.order b

omit [DecidableEq τ] in
theorem office_eq {worker : WorkerPlace} {boxes received : ℕ → List Mail} (puts : (s.putting.map WorkerPlace.put).getD s.worker = worker)
    (contents : ∀ b, s.contents b = boxes b) (got : ∀ b, s.received b = received b) :
    s.office = ⟨s.inHdr, s.inbox, s.messageAvailable, worker, s.buffer, boxes, received⟩ := by
  rw [office, puts, funext contents, funext got]
  rfl

/-- The lists have moved: no call is new, and an address that is new in a list is that of an object. -/
theorem Kept.moved (h : s.Kept numBoxes) {messages : Mp3.SynchList.State (Option τ) ℕ ℕ}
    (reach : Reach (Mp3.SynchList.system (Option τ) ℕ ℕ) (fun _ _ => True) messages)
    (calls : ∀ u c a, messages.calls u = some (c, a) → ∃ a', s.messages.calls u = some (c, a') ∧ (a = none → a' = none))
    (put : ∀ b, ∀ p ∈ put { s with messages } b, p ∈ s.put b ∨ p < s.mails.length ∧ ∃ c a, messages.calls none = some (c, some a)) :
    Kept numBoxes { s with messages } := by
  refine ⟨reach, fun c a call => ?_, fun t c a call => ?_, fun b p mem => ?_, h.short⟩
  · obtain ⟨a', before, still⟩ := calls none c a call
    obtain ⟨wait, b, p, append, pending⟩ := h.worker c a' before
    refine ⟨wait, b, p, append, fun none => ⟨(pending (still none)).mail, fun b' mem => ?_⟩⟩
    obtain old | ⟨-, c', a'', answered⟩ := put b' p mem
    · exact (pending (still none)).new b' old
    · obtain ⟨-, some⟩ := Prod.mk.inj (Option.some.inj (call.symm.trans answered))
      rw [none] at some
      cases some
  · obtain ⟨a', before, -⟩ := calls (some t) c a call
    exact h.receivers t c a' before
  · exact (put b p mem).elim (h.old b p) And.left

/-- The step in which a call takes effect. -/
theorem Kept.stored (h : s.Kept numBoxes) {messages : Mp3.SynchList.State (Option τ) ℕ ℕ} {c : Mp3.SynchList.Call ℕ ℕ} {xs : List ℕ}
    {a : Mp3.ListAnswer ℕ} (reach : Reach (Mp3.SynchList.system (Option τ) ℕ ℕ) (fun _ _ => True) messages)
    (call : s.messages.calls t = some (c, none)) (does : c.does (s.messages.list c.object) = some (a, xs))
    (calls : messages.calls = Function.update s.messages.calls t (some (c, some a)))
    (list : messages.list = Function.update s.messages.list c.object xs) (log : messages.log = s.messages.log ++ [(t, c, a)]) :
    Kept numBoxes { s with messages } ∧ Shows numBoxes s.office (office { s with messages }) := by
  have before (u : Option τ) (c' : Mp3.SynchList.Call ℕ ℕ) (a' : Option (Mp3.ListAnswer ℕ)) (call' : messages.calls u = some (c', a')) :
      ∃ a'', s.messages.calls u = some (c', a'') ∧ (a' = none → a'' = none) := by
    rw [calls] at call'
    obtain rfl | ne := eq_or_ne u t
    · rw [Function.update_self] at call'
      cases call'
      exact ⟨none, call, fun _ => rfl⟩
    · rw [Function.update_of_ne ne] at call'
      exact ⟨a', call', id⟩
  have logged (b : ℕ) : put { s with messages } b = s.put b ++ ([(c, a)].filterMap (appended b)) := by
    rw [put, log, List.map_append, List.filterMap_append]
    rfl
  have got (b : ℕ) : received { s with messages } b = s.received b ++ ([(c, a)].filterMap (taken b)).filterMap (s.mails[·]?) := by
    rw [received, log, List.map_append, List.filterMap_append, List.filterMap_append]
    rfl
  have held (b : ℕ) : contents { s with messages } b = Function.update s.contents c.object (xs.filterMap (s.mails[·]?)) b := by
    rw [contents, list]
    obtain rfl | ne := eq_or_ne b c.object
    · rw [Function.update_self, Function.update_self]
    · rw [Function.update_of_ne ne, Function.update_of_ne ne]
      rfl
  cases t with
  | none =>
    obtain ⟨wait, b, p, rfl, pending⟩ := h.worker c none call
    obtain ⟨⟨m, mail, rfl⟩, new⟩ := pending rfl
    simp only [Mp3.SynchList.Call.does, Option.ite_none_left_eq_some, Option.some.injEq, Prod.mk.injEq] at does
    obtain ⟨-, rfl, rfl⟩ := does
    refine ⟨h.moved reach before fun b q mem => ?_, .works ?_⟩
    · rw [logged, List.mem_append] at mem
      refine mem.imp_right fun mem => ⟨?_, _, _, by rw [calls, Function.update_self]⟩
      obtain ⟨-, -, same⟩ : m.box = b ∧ True ∧ p = q := by simpa [appended] using mem
      rw [← same]
      exact (List.getElem?_eq_some_iff.1 mail).1
    · have worker : s.office.worker = .put m := by
        rw [office, putting, call]
        simp only [mail]
        rfl
      have put : s.contents m.box ++ [m] = (s.messages.list m.box ++ [p]).filterMap (s.mails[·]?) := by
        rw [List.filterMap_append, List.filterMap_cons_some mail]
        rfl
      have after : office { s with messages } = { s.office with
          worker := .wait, boxes := Function.update s.contents m.box (s.contents m.box ++ [m]) } := by
        refine office_eq ?_ (fun b => ?_) fun b => ?_
        · rw [putting, calls, Function.update_self]
          exact wait
        · rw [held, put]
          rfl
        · rw [got]
          exact List.append_nil _
      rw [PostOfficeInput.work, worker, after]
      rfl
  | some u =>
    obtain ⟨box, inRange, rfl⟩ := h.receivers u c none call
    cases items : s.messages.list box.toNat with
    | nil => simp [Mp3.SynchList.Call.does, items] at does
    | cons p rest =>
      simp only [Mp3.SynchList.Call.does, Mp3.SynchList.Call.object, items, Option.some.injEq, Prod.mk.injEq] at does
      obtain ⟨rfl, rfl⟩ := does
      refine ⟨h.moved reach before fun b q mem => .inl ?_, .gets box inRange ?_⟩
      · rw [logged] at mem
        simpa [appended] using mem
      · have bound : p < s.mails.length := by
          refine h.old box.toNat p ?_
          rw [h.fifo, items]
          exact List.mem_append_right _ List.mem_cons_self
        have mail : s.mails[p]? = some s.mails[p] := List.getElem?_eq_getElem bound
        have front : s.office.boxes box.toNat = s.mails[p] :: rest.filterMap (s.mails[·]?) := by
          change (s.messages.list box.toNat).filterMap (s.mails[·]?) = _
          rw [items, List.filterMap_cons_some mail]
        have after : office { s with messages } = { s.office with
            boxes := Function.update s.contents box.toNat (rest.filterMap (s.mails[·]?))
            received := Function.update s.received box.toNat (s.received box.toNat ++ [s.mails[p]]) } := by
          refine office_eq ?_ (fun b => ?_) fun b => ?_
          · rw [putting, calls, Function.update_of_ne (Option.some_ne_none u).symm]
            rfl
          · exact held b
          · rw [got]
            obtain rfl | ne := eq_or_ne b box.toNat
            · rw [Function.update_self]
              simp [taken, mail]
            · rw [Function.update_of_ne ne]
              simp [taken, ne.symm]
        rw [PostOfficeInput.get, if_pos inRange]
        simp only [front]
        rw [if_pos (h.short _ (List.getElem_mem bound)), after]
        rfl

theorem Kept.initial (messages : s.messages = .initial) (mails : s.mails = []) : s.Kept numBoxes := by
  have nobody (u : Option τ) : s.messages.calls u = none := by
    rw [messages]
    rfl
  refine ⟨.init messages, fun c a call => ?_, fun t c a call => ?_, fun b p mem => ?_, fun m mem => ?_⟩
  · rw [nobody] at call
    cases call
  · rw [nobody] at call
    cases call
  · rw [put, messages] at mem
    cases mem
  · rw [mails] at mem
    cases mem

/-- The `ASSERT` of `List::Append`. -/
theorem Kept.appends (h : s.Kept numBoxes) : ¬ s.messages.Fails b t := by
  rintro ⟨p, place, mem⟩
  have call : s.messages.calls t = some (.append b p, none) := by
    rw [Mp3.SynchList.State.calls, place]
    rfl
  cases t with
  | none =>
    obtain ⟨-, b', p', eq, pending⟩ := h.worker _ none call
    obtain ⟨rfl, rfl⟩ := Mp3.SynchList.Call.append.inj eq
    refine (pending rfl).new b ?_
    rw [h.fifo]
    exact List.mem_append_right _ mem
  | some u =>
    obtain ⟨box, -, eq⟩ := h.receivers u _ none call
    cases eq

/-- A step of a function of the lists. -/
theorem Kept.ran (h : s.Kept numBoxes) (done : s.list (.run t) = some s') :
    s'.Kept numBoxes ∧ Shows numBoxes s.office s'.office := by
  obtain ⟨messages, step, rfl⟩ := Option.map_eq_some_iff.1 done
  have reach := h.reach.step trivial step
  cases Mp3.SynchList.State.turn (.of_reach h.reach) step with
  | stores call does calls list log => exact h.stored reach call does calls list log
  | quiet calls list log =>
    refine ⟨h.moved reach (fun u c a call => ⟨a, by rwa [← calls], id⟩) fun b p mem => .inl ?_, .still ?_⟩
    · rwa [put, log] at mem
    · refine office_eq ?_ (fun b => ?_) fun b => ?_
      · rw [putting, calls]
        rfl
      · rw [contents, list]
        rfl
      · rw [received, log]
        rfl
  | @leaves c a call calls list log =>
    refine ⟨h.moved reach (fun u c' a' call' => ?_) fun b p mem => .inl ?_, .still ?_⟩
    · rw [calls] at call'
      obtain rfl | ne := eq_or_ne u t
      · rw [Function.update_self] at call'
        cases call'
      · rw [Function.update_of_ne ne] at call'
        exact ⟨a', call', id⟩
    · rwa [put, log] at mem
    · refine office_eq ?_ (fun b => ?_) fun b => ?_
      · rw [putting, calls]
        obtain rfl | ne := eq_or_ne none t
        · rw [Function.update_self, putting, call]
          cases c <;> rfl
        · rw [Function.update_of_ne ne]
          rfl
      · rw [contents, list]
        rfl
      · rw [received, log]
        rfl

/-- A thread calls a function of the lists. -/
theorem Kept.called (h : s.Kept numBoxes) {c : Mp3.SynchList.Call ℕ ℕ} {u : τ} (done : s.list (.call (some u) c) = some s')
    (removes : ∃ box, BoxOf numBoxes box ∧ c = .removeFront box.toNat) : s'.Kept numBoxes ∧ s'.office = s.office := by
  obtain ⟨messages, step, rfl⟩ := Option.map_eq_some_iff.1 done
  obtain ⟨-, calls, list, log⟩ := Mp3.SynchList.State.called step
  have same : messages.calls none = s.messages.calls none := by rw [calls, Function.update_of_ne (Option.some_ne_none u).symm]
  have put (b : ℕ) : put { s with messages } b = s.put b := by rw [put, log, put]
  refine ⟨⟨h.reach.step trivial step, fun c' a call => ?_, fun t c' a call => ?_, fun b p mem => ?_, h.short⟩, ?_⟩
  · obtain ⟨wait, b, p, append, pending⟩ := h.worker c' a (by rw [← same]; exact call)
    exact ⟨wait, b, p, append, fun none => ⟨(pending none).mail, fun b' => by rw [put]; exact (pending none).new b'⟩⟩
  · change messages.calls _ = _ at call
    rw [calls] at call
    obtain eq | ne := eq_or_ne (some t) (some u)
    · rw [eq, Function.update_self] at call
      cases call
      exact removes
    · rw [Function.update_of_ne ne] at call
      exact h.receivers t c' a call
  · rw [put] at mem
    exact h.old b p mem
  · refine office_eq ?_ (fun b => ?_) fun b => ?_
    · rw [putting, same]
      rfl
    · rw [contents, list]
      rfl
    · rw [received, log]
      rfl

/-- `Put` is called. -/
theorem Kept.puts (h : s.Kept numBoxes) {m : Mail} (worker : s.worker = .put m) (short : m.mailHdr.length.toNat ≤ maxMailSize)
    (done : list { s with mails := s.mails ++ [m], worker := .wait } (.call none (.append m.box s.mails.length)) = some s') :
    s'.Kept numBoxes ∧ s'.office = s.office := by
  obtain ⟨messages, step, rfl⟩ := Option.map_eq_some_iff.1 done
  obtain ⟨outside, calls, list, log⟩ := Mp3.SynchList.State.called step
  have old {p : ℕ} (bound : p < s.mails.length) : (s.mails ++ [m])[p]? = s.mails[p]? := List.getElem?_append_left bound
  have listed (b p : ℕ) (mem : p ∈ s.messages.list b) : p < s.mails.length :=
    h.old b p (by rw [h.fifo]; exact List.mem_append_right _ mem)
  have took (b p : ℕ) (mem : p ∈ (s.messages.log.map Prod.snd).filterMap (taken b)) : p < s.mails.length :=
    h.old b p (by rw [h.fifo]; exact List.mem_append_left _ mem)
  refine ⟨⟨h.reach.step trivial step, fun c a call => ?_, fun t c a call => ?_, fun b p mem => ?_, fun m' mem => ?_⟩, ?_⟩
  · change messages.calls none = _ at call
    rw [calls, Function.update_self] at call
    cases call
    refine ⟨rfl, m.box, s.mails.length, rfl, fun _ => ⟨⟨m, List.getElem?_concat_length, rfl⟩, fun b' mem => ?_⟩⟩
    rw [put, log] at mem
    exact Nat.lt_irrefl _ (h.old b' _ mem)
  · change messages.calls _ = _ at call
    rw [calls, Function.update_of_ne (Option.some_ne_none t)] at call
    exact h.receivers t c a call
  · rw [put, log] at mem
    rw [List.length_append]
    exact Nat.lt_add_right _ (h.old b p mem)
  · obtain mem | mem := List.mem_append.1 mem
    · exact h.short m' mem
    · rwa [List.mem_singleton.1 mem]
  · have before : s.office = ⟨s.inHdr, s.inbox, s.messageAvailable, .put m, s.buffer, s.contents, s.received⟩ := by
      refine office_eq ?_ (fun _ => rfl) fun _ => rfl
      rw [putting, outside]
      exact worker
    rw [before]
    refine office_eq ?_ (fun b => ?_) fun b => ?_
    · rw [putting, calls, Function.update_self]
      simp only [List.getElem?_concat_length]
      rfl
    · rw [contents, list]
      exact List.filterMap_congr fun p mem => old (listed b p mem)
    · rw [received, log]
      exact List.filterMap_congr fun p mem => old (took b p mem)

/-- What is in front of the boxes moves. -/
theorem Kept.setFront (h : s.Kept numBoxes) {o : PostOfficeInput} (worker : o.worker = s.worker ∨ s.messages.calls none = none) :
    (s.setFront o).Kept numBoxes := by
  obtain ⟨reach, works, receivers, old, short⟩ := h
  refine ⟨reach, fun c a call => ?_, receivers, old, short⟩
  change s.messages.calls none = _ at call
  obtain same | outside := worker
  · obtain ⟨wait, b, p, append, pending⟩ := works c a call
    exact ⟨same.trans wait, b, p, append, fun none => ⟨(pending none).mail, (pending none).new⟩⟩
  · rw [outside] at call
    cases call

omit [DecidableEq τ] in
/-- The interrupt handler looks at neither the worker nor the boxes. -/
theorem callBack_front (hostName : Word) (o : PostOfficeInput) (sock : List (List Byte)) (worker : WorkerPlace) (boxes received : ℕ → List Mail) :
    ({ o with worker, boxes, received } : PostOfficeInput).callBack hostName sock =
      (o.callBack hostName sock).map fun r => ({ r.1 with worker, boxes, received }, r.2) := by
  simp only [PostOfficeInput.callBack]
  by_cases full : o.inHdr.length ≠ 0
  · rw [if_pos full, if_pos full]
    rfl
  · rw [if_neg full, if_neg full]
    cases sock with
    | nil => rfl
    | cons buffer later =>
      simp only
      split <;> rfl

omit [DecidableEq τ] in
/-- The worker looks at the boxes where it puts a mail. -/
theorem work_front (o : PostOfficeInput) (boxes received : ℕ → List Mail) (none : ∀ m, o.worker ≠ .put m) :
    ({ o with boxes, received } : PostOfficeInput).work numBoxes = (o.work numBoxes).map fun o' => { o' with boxes, received } := by
  simp only [PostOfficeInput.work]
  cases worker : o.worker with
  | put m => exact absurd worker (none m)
  | wait =>
    simp only [Option.map_map]
    rfl
  | receive =>
    change (if _ then _ else _) = Option.map _ (if _ then _ else _)
    rw [apply_ite (Option.map _)]
    rfl

theorem Kept.callBack {hostName : Word} {sock sock' : List (List Byte)} (h : s.Kept numBoxes)
    (done : s.callBack hostName sock = some (s', sock')) :
    s'.Kept numBoxes ∧ s.office.callBack hostName sock = some (s'.office, sock') := by
  obtain ⟨⟨o, later⟩, goes, eq⟩ := Option.map_eq_some_iff.1 done
  obtain ⟨rfl, rfl⟩ := Prod.mk.inj eq
  have same : o.worker = s.worker := by
    have self := callBack_front hostName s.front sock s.worker (fun _ => []) (fun _ => [])
    change s.front.callBack hostName sock = _ at self
    rw [goes] at self
    exact congrArg (fun r => (Option.getD r (s.front, [])).1.worker) self
  have after : (s.setFront o).office =
      { o with worker := (s.putting.map WorkerPlace.put).getD s.worker, boxes := s.contents, received := s.received } := by
    refine office_eq ?_ (fun _ => rfl) fun _ => rfl
    change (s.putting.map _).getD o.worker = _
    rw [same]
  refine ⟨h.setFront (.inl same), ?_⟩
  rw [office, callBack_front hostName s.front sock, goes, after]
  rfl

/-- A step of the postal worker. -/
theorem Kept.works (h : s.Kept numBoxes) (done : s.work numBoxes = some s') :
    s'.Kept numBoxes ∧ Shows numBoxes s.office s'.office := by
  have front (outside : s.messages.place none = none) (puts : ∀ m, s.worker ≠ .put m)
      (done : (s.front.work numBoxes).map s.setFront = some s') : s'.Kept numBoxes ∧ Shows numBoxes s.office s'.office := by
    obtain ⟨o, goes, rfl⟩ := Option.map_eq_some_iff.1 done
    have calls : s.messages.calls none = none := by
      rw [Mp3.SynchList.State.calls, outside]
      rfl
    have idle : s.putting = none := by rw [putting, calls]
    have idle' : (s.setFront o).putting = none := idle
    have before : s.office = { s.front with boxes := s.contents, received := s.received } := by
      refine office_eq ?_ (fun _ => rfl) fun _ => rfl
      rw [idle]
      rfl
    have after : (s.setFront o).office = { o with boxes := s.contents, received := s.received } := by
      refine office_eq ?_ (fun _ => rfl) fun _ => rfl
      rw [idle']
      rfl
    refine ⟨h.setFront (.inr calls), .works ?_⟩
    rw [before, work_front _ _ _ puts, goes, after]
    rfl
  rw [work] at done
  split at done
  · exact h.ran done
  · rename_i m _ worker
    obtain ⟨short, done⟩ := Option.ite_none_right_eq_some.1 done
    obtain ⟨kept, same⟩ := h.puts worker short done
    exact ⟨kept, .still same⟩
  · rename_i outside worker
    exact front outside (fun m => by rw [worker]; exact WorkerPlace.noConfusion) done
  · rename_i outside worker
    exact front outside (fun m => by rw [worker]; exact WorkerPlace.noConfusion) done

end kept

end MailRoom

namespace MailRooms

variable [DecidableEq τ] {numBoxes : Word → ℕ} {s s' : MailRooms τ} {host : Word}

omit [DecidableEq τ] in
theorem network_setInput (s : MailRooms τ) (host : Word) (input : MailRoom τ) :
    (s.setInput host input).network = { s.network with input := Function.update s.network.input host input.office } := by
  have inputs : (fun h => ((Function.update s.input host input) h).office) = Function.update s.network.input host input.office := by
    funext h
    obtain rfl | ne := eq_or_ne h host
    · rw [Function.update_self, Function.update_self]
    · rw [Function.update_of_ne ne, Function.update_of_ne ne]
      rfl
  rw [← inputs]
  rfl

theorem kept_setInput (kept : ∀ h, (s.input h).Kept (numBoxes h)) {input : MailRoom τ} (here : input.Kept (numBoxes host)) (h : Word) :
    ((s.setInput host input).input h).Kept (numBoxes h) := by
  change (Function.update s.input host input h).Kept _
  obtain rfl | ne := eq_or_ne h host
  · rwa [Function.update_self]
  · rw [Function.update_of_ne ne]
    exact kept h

/-- A step of a machine is one of the network of `PostOffice`, or none. -/
theorem shows_setInput {input : MailRoom τ} (shows : MailRoom.Shows (numBoxes host) (s.input host).office input.office) :
    (s.setInput host input).network = s.network ∨
      ∃ e, Proper numBoxes s.network e ∧ s.network.step numBoxes e = some (s.setInput host input).network := by
  rw [network_setInput]
  cases shows with
  | still same =>
    refine .inl ?_
    rw [same]
    change { s.network with input := Function.update s.network.input host (s.network.input host) } = _
    rw [Function.update_eq_self]
  | works step =>
    refine .inr ⟨.work host, ⟨fun _ _ _ eq => (by cases eq), fun _ _ eq => (by cases eq)⟩, ?_⟩
    change ((s.input host).office.work (numBoxes host)).map _ = _
    rw [step]
    rfl
  | gets box exists' step =>
    refine .inr ⟨.receive host box, ⟨fun _ _ _ eq => (by cases eq), fun h box' eq => ?_⟩, ?_⟩
    · cases eq
      exact exists'
    · change ((s.input host).office.get (numBoxes host) box).taken.map _ = _
      rw [step]
      rfl

/-- A step is one of the network of `PostOffice`, or none. -/
theorem step_shows (kept : ∀ h, (s.input h).Kept (numBoxes h)) {e : MailEvent τ} (proper : MailProper numBoxes s e)
    (next : s.step numBoxes e = some s') : (∀ h, (s'.input h).Kept (numBoxes h)) ∧
      (s'.network = s.network ∨ ∃ e', Proper numBoxes s.network e' ∧ s.network.step numBoxes e' = some s'.network) := by
  cases e with
  | output host e =>
    obtain ⟨out, goes, rfl⟩ := Option.map_eq_some_iff.1 next
    refine ⟨kept, .inr ⟨.output host e, ⟨fun h t c eq => ?_, fun _ _ eq => (by cases eq)⟩, ?_⟩⟩
    · obtain ⟨rfl, rfl⟩ := NetworkEvent.output.inj eq
      exact proper.sends host t c rfl
    · change ((s.output host).step _ e).map _ = _
      rw [goes]
      rfl
  | poll host =>
    obtain ⟨⟨input, socket⟩, goes, rfl⟩ := Option.map_eq_some_iff.1 next
    obtain ⟨here, polled⟩ := (kept host).callBack goes
    refine ⟨kept_setInput kept here, .inr ⟨.poll host, ⟨fun _ _ _ eq => (by cases eq), fun _ _ eq => (by cases eq)⟩, ?_⟩⟩
    have after : network { s.setInput host input with socket := Function.update s.socket host socket } =
        { (s.setInput host input).network with socket := Function.update s.socket host socket } := rfl
    change ((s.input host).office.callBack host (s.socket host)).map _ = _
    rw [polled, after, network_setInput]
    rfl
  | work host =>
    obtain ⟨input, goes, rfl⟩ := Option.map_eq_some_iff.1 next
    obtain ⟨here, shows⟩ := (kept host).works goes
    exact ⟨kept_setInput kept here, shows_setInput shows⟩
  | receive host t box =>
    obtain ⟨input, goes, rfl⟩ := Option.map_eq_some_iff.1 next
    obtain ⟨exists', called⟩ := Option.ite_none_right_eq_some.1 goes
    obtain ⟨here, same⟩ := (kept host).called called ⟨box, exists', rfl⟩
    exact ⟨kept_setInput kept here, shows_setInput (.still same)⟩
  | run host t =>
    obtain ⟨input, goes, rfl⟩ := Option.map_eq_some_iff.1 next
    obtain ⟨here, shows⟩ := (kept host).ran goes
    exact ⟨kept_setInput kept here, shows_setInput shows⟩

end MailRooms

/-- **The boxes are synchronized lists.** In every interleaving in which threads send to and receive from boxes that exist, the
machines do what the network of `PostOffice` does, where a box is put to and taken from in one step: the step in which the call of the list
takes effect. No `ASSERT` of `Append` or of the mail's length fails; threads get the mails their calls took; and no thread
sleeps on a box with mail unless another one comes for it. -/
theorem mailRooms_refine [DecidableEq τ] {numBoxes : Word → ℕ} {s : MailRooms τ} (reach : Reach (mailRooms τ numBoxes) (MailProper numBoxes) s) :
    Reach (network τ numBoxes) (Proper numBoxes) s.network ∧
      ∀ h, (∀ m ∈ (s.input h).mails, m.mailHdr.length.toNat ≤ maxMailSize) ∧ (∀ b t, ¬ (s.input h).messages.Fails b t) ∧
        (s.input h).messages.Linear ∧ ∀ b, (s.input h).messages.Awaited b := by
  have refines : (∀ h, (s.input h).Kept (numBoxes h)) ∧ Reach (network τ numBoxes) (Proper numBoxes) s.network := by
    induction reach with
    | init start => exact ⟨fun h => .initial (start.2 h).1 (start.2 h).2, .init start.1⟩
    | step _ proper next ih =>
      obtain ⟨kept, before⟩ := ih
      obtain ⟨kept', same | ⟨e, proper', step⟩⟩ := MailRooms.step_shows kept proper next
      · rw [same]
        exact ⟨kept', before⟩
      · exact ⟨kept', before.step proper' step⟩
  obtain ⟨kept, after⟩ := refines
  exact ⟨after, fun h => ⟨(kept h).short, fun b t => (kept h).appends, Mp3.SynchList.State.runs_of_reach (kept h).reach⟩⟩

end Nachos.Devices
