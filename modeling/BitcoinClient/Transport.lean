/-
**The transport of messages between nodes.**

The network of nodes delivers any message that some node has sent.  This module puts the transport
of the client below it.  A message that a thread broadcasts goes into the control channel of the
server, and the dispatcher (`src/network/server.rs`) hands it to the write queue of every registered
peer; the answer to a message goes straight into the queue of the peer that sent it
(`Handle::write` of `src/network/peer.rs`).  A writer task takes a message off its queue, with the
bytes that `bincode` made of it, and writes a frame; the bytes arrive in pieces; the reader task on
the other side takes frames off what has arrived and puts the payloads into the channel of the
network workers, which take a payload out, make a message of it and treat it.

A connection may break at any time: a write fails in the middle of a frame, bytes that were written
never arrive, the server drops the peer.  Every run of the nodes over this transport is still a run
of the network, and what a reader delivers is a prefix of what was handed to the writer.

A connection is two links, one for each direction.  `bincode` is a parameter; the channels have no
bounds; a network worker takes any payload of its channel, as the others may be held by workers that
wait for a mutex.

Main definitions:

* `BitcoinClient.Bincode`, `BitcoinClient.Topology`;
* `BitcoinClient.Transport`, `BitcoinClient.Transport.step` — the nodes with their connections;
* `BitcoinClient.Transport.sent`, `BitcoinClient.Transport.read` — what a run has put into the queue
  of a link and what its reader has delivered.

Main results:

* `BitcoinClient.Transport.faithful_step` — the step lemma;
* `BitcoinClient.Transport.refines_network` — **nodes over the transport refine the network**;
* `BitcoinClient.Transport.delivers_in_order` — **each link delivers in order, at most once**.
-/

import BitcoinClient.FramedLink
import BitcoinClient.Framing
import BitcoinClient.HonestNetwork

set_option relaxedAutoImplicit false
set_option autoImplicit false

namespace BitcoinClient

open Framing

/-- The functions of `bincode` that the client uses; `none` when the bytes are not those of a
message. -/
structure Bincode where
  serialize : Message → Payload
  deserialize : Payload → Option Message

/-- The message fits in a frame, and its bytes give it back. -/
def Bincode.Transmits (codec : Bincode) (m : Message) : Prop :=
  (codec.serialize m).length < 2 ^ 32 ∧ codec.deserialize (codec.serialize m) = some m

instance (codec : Bincode) (m : Message) : Decidable (codec.Transmits m) :=
  inferInstanceAs (Decidable (_ ∧ _))

/-- The links between the nodes, each with the link in the other direction of its connection. -/
structure Topology (ι κ : Type) where
  source : κ → ι
  target : κ → ι
  back : κ → κ
  source_back : ∀ k, source (back k) = target k

/-- The handler of a message answers the peer that has sent it; that of `Transactions` broadcasts. -/
def Message.answered : Message → Bool
  | .transactions _ => false
  | _ => true

namespace Transport

/-! ### One link -/

/-- One direction of a connection: the queue and the writer task on one side, the bytes that were
written and have not arrived, and the reader task on the other side with what has arrived. -/
structure Link where
  writeQueue : List Payload
  writing : Bool
  wire : List UInt8
  cut : Bool
  reader : Reader

def Link.new : Link :=
  { writeQueue := [], writing := true, wire := [], cut := false, reader := .new [] }

inductive LinkEvent
  | write
  /-- The write fails when `n` bytes of the frame are written. -/
  | writeFails (n : ℕ)
  | arrive (n : ℕ)
  | cut

/-- `Handle::write`: without a writer the message is dropped. -/
def Link.enqueue (l : Link) (buffers : List Payload) : Link :=
  if l.writing then { l with writeQueue := l.writeQueue ++ buffers } else l

def Link.step (l : Link) : LinkEvent → Option Link
  | .write =>
    match l.writeQueue with
    | [] => none
    | newMsg :: writeQueue =>
      if l.writing then some { l with writeQueue, wire := l.wire ++ writerLoop [newMsg] } else none
  | .writeFails n =>
    match l.writeQueue with
    | [] => none
    | newMsg :: _ =>
      if l.writing then
        some { l with writeQueue := [], writing := false,
                      wire := l.wire ++ (writerLoop [newMsg]).take n }
      else none
  | .arrive n =>
    if l.cut then none
    else some { l with wire := l.wire.drop n,
                       reader := { l.reader with stream := l.reader.stream ++ l.wire.take n } }
  | .cut => some { l with cut := true, wire := [] }

/-- The link without the buffer of its reader. -/
def Link.framed (l : Link) : FramedLink.Link UInt8 :=
  { queue := l.writeQueue, writing := l.writing, wire := l.wire, cut := l.cut,
    stream := l.reader.stream }

theorem writerLoop_singleton (p : Payload) : writerLoop [p] = header.frame p := by
  rw [writerLoop_eq, LengthPrefix.Header.frames_singleton]

theorem Link.framed_enqueue (l : Link) (buffers : List Payload) :
    l.framed.step header (.send buffers) = some (l.enqueue buffers).framed := by
  rw [FramedLink.Link.step, Link.enqueue]
  change some (if l.writing = true then _ else _) = _
  split <;> rfl

/-- The steps of a link are steps of a link that carries frames; they deliver nothing. -/
theorem Link.framed_step {l l' : Link} {e : LinkEvent} (h : l.step e = some l') :
    ∃ e', l.framed.step header e' = some l'.framed ∧ FramedLink.accepted l.framed e' = [] ∧
      FramedLink.delivered header l.framed e' = [] := by
  cases e with
  | write =>
      refine ⟨.write, ?_, rfl, rfl⟩
      rw [Link.step] at h
      cases hq : l.writeQueue with
      | nil => simp [hq] at h
      | cons p queue =>
          simp only [hq, Option.ite_none_right_eq_some, Option.some.injEq] at h
          obtain ⟨hw, rfl⟩ := h
          simp [FramedLink.Link.step, Link.framed, hq, hw, writerLoop_singleton]
  | writeFails n =>
      refine ⟨.fail n, ?_, rfl, rfl⟩
      rw [Link.step] at h
      cases hq : l.writeQueue with
      | nil => simp [hq] at h
      | cons p queue =>
          simp only [hq, Option.ite_none_right_eq_some, Option.some.injEq] at h
          obtain ⟨hw, rfl⟩ := h
          simp [FramedLink.Link.step, Link.framed, hq, hw, writerLoop_singleton]
  | arrive n =>
      refine ⟨.arrive n, ?_, rfl, rfl⟩
      simp only [Link.step, Option.ite_none_left_eq_some, Option.some.injEq, Bool.not_eq_true] at h
      obtain ⟨hc, rfl⟩ := h
      simp [FramedLink.Link.step, Link.framed, hc]
  | cut =>
      refine ⟨.cut, ?_, rfl, rfl⟩
      obtain rfl := Option.some_inj.1 h
      rfl

/-- An iteration of the reader task is a step of the link, and delivers its payload. -/
theorem Link.framed_read {l : Link} {payload : Payload} {r : Reader}
    (h : readFrame l.reader = some (payload, r)) :
    l.framed.step header .read = some { l with reader := r }.framed ∧
      FramedLink.delivered header l.framed .read = [payload] := by
  have hnext := map_readFrame l.reader
  rw [h, Option.map_some] at hnext
  have hnext' : header.next l.framed.stream = some (payload, r.stream) := hnext.symm
  constructor
  · rw [FramedLink.Link.step, hnext', Option.map_some]
    rfl
  · rw [FramedLink.delivered, hnext']
    rfl

end Transport

/-! ### Nodes and their connections -/

/-- The nodes, with the control channel of each server, its registered peers and the channel of its
network workers, and the links. -/
structure Transport (ι κ : Type) where
  nodes : Network ι
  controlChan : ι → List Message
  peers : ι → List κ
  links : κ → Transport.Link
  msgChan : ι → List (Payload × κ)

inductive TransportEvent (ι κ : Type)
  /-- A thread takes a step, other than taking a message from its channel. -/
  | node (i : ι) (e : Event)
  /-- A network worker takes the payload at a position of its channel. -/
  | receive (i : ι) (position : ℕ)
  /-- The dispatcher processes a broadcast. -/
  | dispatch (i : ι)
  | register (k : κ)
  | drop (k : κ)
  | link (k : κ) (e : Transport.LinkEvent)
  /-- The reader task takes a frame. -/
  | read (k : κ)

namespace Transport

variable [Crypto] {ι κ : Type} [DecidableEq ι] [DecidableEq κ]

def init (gs : ι → GenesisDraw) : Transport ι κ where
  nodes i := Node.init (gs i)
  controlChan _ := []
  peers _ := []
  links _ := .new
  msgChan _ := []

/-- The messages that a step has sent. -/
def newMessages (n n' : Node) : List Message := n'.server.drop n.server.length

/-- The message at a position of the channel of the network workers, with the link it came on. -/
def taken (codec : Bincode) (T : Transport ι κ) (i : ι) (position : ℕ) : Option (Message × κ) := do
  let (payload, k) ← (T.msgChan i)[position]?
  let m ← codec.deserialize payload
  some (m, k)

def takeOut (T : Transport ι κ) (i : ι) (position : ℕ) : Transport ι κ :=
  { T with msgChan := Function.update T.msgChan i ((T.msgChan i).eraseIdx position) }

/-- What a step hands to write queues: the answers to the message that is taken, or a broadcast. -/
def handOver (codec : Bincode) (top : Topology ι κ) (T : Transport ι κ) :
    TransportEvent ι κ → List (κ × Message)
  | .receive i position =>
    match T.taken codec i position with
    | none => []
    | some (m, k) =>
      match (T.nodes i).step (.message m) with
      | none => []
      | some n' =>
        if m.answered then (newMessages (T.nodes i) n').map (top.back k, ·) else []
  | .dispatch i =>
    match T.controlChan i with
    | [] => []
    | m :: _ => (T.peers i).map (·, m)
  | _ => []

/-- What is handed to the queue of one link. -/
def handedTo (k : κ) (messages : List (κ × Message)) : List Message :=
  (messages.filter (·.1 = k)).map Prod.snd

def write (codec : Bincode) (T : Transport ι κ) (messages : List (κ × Message)) : Transport ι κ :=
  { T with links := fun k =>
      (T.links k).enqueue ((handedTo k messages).map codec.serialize) }

def broadcast (T : Transport ι κ) (i : ι) (messages : List Message) : Transport ι κ :=
  { T with controlChan := Function.update T.controlChan i (T.controlChan i ++ messages) }

def setNode (T : Transport ι κ) (i : ι) (n : Node) : Transport ι κ :=
  { T with nodes := Function.update T.nodes i n }

/-- **One step of the nodes with their connections.** -/
def step (codec : Bincode) (top : Topology ι κ) (T : Transport ι κ) (e : TransportEvent ι κ) :
    Option (Transport ι κ) :=
  match e with
  | .node i e =>
    match e.received with
    | some _ => none
    | none =>
      ((T.nodes i).step e).map fun n' => (T.setNode i n').broadcast i (newMessages (T.nodes i) n')
  | .receive i position =>
    if position < (T.msgChan i).length then
      let rest := T.takeOut i position
      match T.taken codec i position with
      | none => some rest -- the worker panics
      | some (m, _) =>
        ((T.nodes i).step (.message m)).map fun n' =>
          if m.answered then (rest.setNode i n').write codec (T.handOver codec top e)
          else (rest.setNode i n').broadcast i (newMessages (T.nodes i) n')
    else none
  | .dispatch i =>
    match T.controlChan i with
    | [] => none
    | _ :: rest =>
      some ({ T with controlChan := Function.update T.controlChan i rest }.write codec
        (T.handOver codec top e))
  | .register k =>
    let i := top.source k
    if k ∈ T.peers i then none
    else some { T with peers := Function.update T.peers i (k :: T.peers i) }
  | .drop k =>
    let i := top.source k
    some { T with peers := Function.update T.peers i ((T.peers i).erase k) }
  | .link k e =>
    ((T.links k).step e).map fun l => { T with links := Function.update T.links k l }
  | .read k =>
    (readFrame (T.links k).reader).map fun x =>
      let i := top.target k
      { T with links := Function.update T.links k { T.links k with reader := x.2 },
               msgChan := Function.update T.msgChan i (T.msgChan i ++ [(x.1, k)]) }

/-- The runs of the nodes with their connections. -/
abbrev Run (codec : Bincode) (top : Topology ι κ) (T : Transport ι κ) :
    List (Transport ι κ × TransportEvent ι κ) → Transport ι κ → Prop :=
  Lts.Run (fun T e T' => T.step codec top e = some T') T

/-- The step of the network that a step is. -/
def label (codec : Bincode) (T : Transport ι κ) : TransportEvent ι κ → Option (ι × Event)
  | .node i e => some (i, e)
  | .receive i position => (T.taken codec i position).map fun x => (i, .message x.1)
  | _ => none

/-! ### What goes over a link -/

/-- The messages that a step puts into the queue of a link. -/
def sends (codec : Bincode) (top : Topology ι κ) (T : Transport ι κ) (e : TransportEvent ι κ) (k : κ) :
    List Message :=
  if (T.links k).writing then handedTo k (T.handOver codec top e) else []

/-- The payloads that a step takes off a link. -/
def reads (T : Transport ι κ) (k : κ) : TransportEvent ι κ → List Payload
  | .read k' => if k' = k then ((readFrame (T.links k).reader).map Prod.fst).toList else []
  | _ => []

def sent (codec : Bincode) (top : Topology ι κ) (k : κ)
    (tr : List (Transport ι κ × TransportEvent ι κ)) : List Message :=
  tr.flatMap fun x => x.1.sends codec top x.2 k

def read (k : κ) (tr : List (Transport ι κ × TransportEvent ι κ)) : List Payload :=
  tr.flatMap fun x => x.1.reads k x.2

variable {codec : Bincode} {top : Topology ι κ} {T T' : Transport ι κ} {e : TransportEvent ι κ}

omit [Crypto] [DecidableEq ι] in
theorem mem_handedTo {k : κ} {messages : List (κ × Message)} {m : Message} :
    m ∈ handedTo k messages ↔ (k, m) ∈ messages := by
  simp only [handedTo, List.mem_map, List.mem_filter, decide_eq_true_eq, Prod.exists]
  constructor
  · rintro ⟨_, _, ⟨hm, rfl⟩, rfl⟩
    exact hm
  · exact fun hm => ⟨k, m, ⟨hm, rfl⟩, rfl⟩

/-! ### What a step can do -/

/-- The steps, each with what it leads to. -/
inductive StepCase (codec : Bincode) (top : Topology ι κ) (T : Transport ι κ) :
    TransportEvent ι κ → Transport ι κ → Prop
  | node {i : ι} {e : Event} {n' : Node} : e.received = none → (T.nodes i).step e = some n' →
      StepCase codec top T (.node i e) ((T.setNode i n').broadcast i (newMessages (T.nodes i) n'))
  | panic {i : ι} {position : ℕ} : T.taken codec i position = none →
      StepCase codec top T (.receive i position) (T.takeOut i position)
  | answer {i : ι} {position : ℕ} {m : Message} {k : κ} {n' : Node} :
      T.taken codec i position = some (m, k) → (T.nodes i).step (.message m) = some n' →
      T.handOver codec top (.receive i position) =
        (newMessages (T.nodes i) n').map (top.back k, ·) →
      StepCase codec top T (.receive i position)
        (((T.takeOut i position).setNode i n').write codec
          (T.handOver codec top (.receive i position)))
  | announce {i : ι} {position : ℕ} {m : Message} {k : κ} {n' : Node} :
      T.taken codec i position = some (m, k) → (T.nodes i).step (.message m) = some n' →
      T.handOver codec top (.receive i position) = [] →
      StepCase codec top T (.receive i position)
        (((T.takeOut i position).setNode i n').broadcast i (newMessages (T.nodes i) n'))
  | dispatch {i : ι} {m : Message} {rest : List Message} : T.controlChan i = m :: rest →
      T.handOver codec top (.dispatch i) = (T.peers i).map (·, m) →
      StepCase codec top T (.dispatch i)
        ({ T with controlChan := Function.update T.controlChan i rest }.write codec
          (T.handOver codec top (.dispatch i)))
  | register (k : κ) : StepCase codec top T (.register k)
      { T with peers := Function.update T.peers (top.source k) (k :: T.peers (top.source k)) }
  | drop (k : κ) : StepCase codec top T (.drop k)
      { T with peers := Function.update T.peers (top.source k) ((T.peers (top.source k)).erase k) }
  | link {k : κ} {e : LinkEvent} {l : Link} : (T.links k).step e = some l →
      StepCase codec top T (.link k e) { T with links := Function.update T.links k l }
  | read {k : κ} {payload : Payload} {r : Reader} :
      readFrame (T.links k).reader = some (payload, r) →
      StepCase codec top T (.read k)
        { T with links := Function.update T.links k { T.links k with reader := r },
                 msgChan := Function.update T.msgChan (top.target k)
                   (T.msgChan (top.target k) ++ [(payload, k)]) }

theorem stepCase_of_step (hstep : T.step codec top e = some T') : StepCase codec top T e T' := by
  cases e with
  | node i e =>
      rw [step] at hstep
      split at hstep
      · cases hstep
      · rename_i hreceived
        obtain ⟨n', hn', rfl⟩ := Option.map_eq_some_iff.1 hstep
        exact .node hreceived hn'
  | receive i position =>
      obtain ⟨-, hstep⟩ := Option.ite_none_right_eq_some.1 hstep
      cases htaken : T.taken codec i position with
      | none =>
          rw [htaken] at hstep
          obtain rfl := Option.some_inj.1 hstep
          exact .panic htaken
      | some x =>
          obtain ⟨m, k⟩ := x
          rw [htaken] at hstep
          obtain ⟨n', hn', rfl⟩ := Option.map_eq_some_iff.1 hstep
          cases hm : m.answered with
          | true =>
              rw [if_pos rfl]
              exact .answer htaken hn' (by simp [handOver, htaken, hn', hm])
          | false =>
              rw [if_neg Bool.false_ne_true]
              exact .announce htaken hn' (by simp [handOver, htaken, hn', hm])
  | dispatch i =>
      rw [step] at hstep
      split at hstep
      · cases hstep
      · rename_i m rest hchan
        obtain rfl := Option.some_inj.1 hstep
        exact .dispatch hchan (by rw [handOver, hchan])
  | register k =>
      obtain ⟨-, hstep⟩ := Option.ite_none_left_eq_some.1 hstep
      obtain rfl := Option.some_inj.1 hstep
      exact .register k
  | drop k =>
      obtain rfl := Option.some_inj.1 hstep
      exact .drop k
  | link k e =>
      obtain ⟨l, hl, rfl⟩ := Option.map_eq_some_iff.1 hstep
      exact .link hl
  | read k =>
      obtain ⟨⟨payload, r⟩, hr, rfl⟩ := Option.map_eq_some_iff.1 hstep
      exact .read hr

/-! ### What a step does to a link -/

/-- A step of the nodes as a step of one link, seen without the buffer of its reader. -/
def LinkStep (codec : Bincode) (top : Topology ι κ) (T : Transport ι κ) (e : TransportEvent ι κ)
    (T' : Transport ι κ) (k : κ) : Prop :=
  ∃ e', (T.links k).framed.step header e' = some (T'.links k).framed ∧
    FramedLink.accepted (T.links k).framed e' = (T.sends codec top e k).map codec.serialize ∧
    FramedLink.delivered header (T.links k).framed e' = T.reads k e

omit [DecidableEq ι] in
/-- The step does not concern the link. -/
theorem LinkStep.of_eq {k : κ} (hlinks : T'.links k = T.links k)
    (hsends : handedTo k (T.handOver codec top e) = []) (hreads : T.reads k e = []) :
    LinkStep codec top T e T' k := by
  refine ⟨.send [], ?_, ?_, hreads.symm⟩
  · rw [Link.framed_enqueue, hlinks, Link.enqueue]
    split <;> simp [Link.framed]
  · simp [FramedLink.accepted, sends, hsends]

omit [DecidableEq ι] in
/-- The step hands messages to write queues. -/
theorem LinkStep.of_write {k : κ}
    (hlinks : T'.links k =
      (T.links k).enqueue ((handedTo k (T.handOver codec top e)).map codec.serialize))
    (hreads : T.reads k e = []) : LinkStep codec top T e T' k := by
  refine ⟨.send ((handedTo k (T.handOver codec top e)).map codec.serialize), ?_, ?_, hreads.symm⟩
  · rw [Link.framed_enqueue, hlinks]
  · rw [FramedLink.accepted, sends]
    change (if (T.links k).writing = true then _ else _) = _
    split <;> rfl

/-- **A step of the nodes is a step of every link.** -/
theorem linkStep_of_step (hstep : T.step codec top e = some T') (k : κ) :
    LinkStep codec top T e T' k := by
  cases stepCase_of_step hstep with
  | node => exact .of_eq rfl rfl rfl
  | panic htaken => exact .of_eq rfl (by rw [handOver, htaken]; rfl) rfl
  | answer => exact .of_write rfl rfl
  | announce _ _ hover => exact .of_eq rfl (by rw [hover]; rfl) rfl
  | dispatch => exact .of_write rfl rfl
  | register => exact .of_eq rfl rfl rfl
  | drop => exact .of_eq rfl rfl rfl
  | @link k' e l hl =>
      rcases eq_or_ne k k' with rfl | hk
      · obtain ⟨e', he', haccepted, hdelivered⟩ := Link.framed_step hl
        refine ⟨e', ?_, ?_, hdelivered⟩
        · change _ = some (Function.update T.links k l k).framed
          rw [he', Function.update_self]
        · rw [haccepted, sends]
          split <;> rfl
      · exact .of_eq (Function.update_of_ne hk ..) rfl rfl
  | @read k' payload r hr =>
      rcases eq_or_ne k k' with rfl | hk
      · obtain ⟨he', hdelivered⟩ := Link.framed_read hr
        refine ⟨.read, ?_, ?_, ?_⟩
        · change _ = some (Function.update T.links k { T.links k with reader := r } k).framed
          rw [he', Function.update_self]
        · rw [sends]
          split <;> rfl
        · rw [hdelivered, reads, if_pos rfl, hr]
          rfl
      · exact .of_eq (Function.update_of_ne hk ..) rfl (if_neg hk.symm)

/-! ### The invariant -/

/-- What the transport keeps over the trace `tr`: all that is under way was sent by the node it comes
from, to the node it is for. -/
structure Faithful (codec : Bincode) (top : Topology ι κ)
    (tr : List (Transport ι κ × TransportEvent ι κ)) (T : Transport ι κ) : Prop where
  controlChan : ∀ i, ∀ m ∈ T.controlChan i, m ∈ (T.nodes i).server
  peers : ∀ i, ∀ k ∈ T.peers i, top.source k = i
  origin : ∀ k, ∀ m ∈ sent codec top k tr, m ∈ (T.nodes (top.source k)).server ∧ codec.Transmits m
  carries : ∀ k, FramedLink.Carries header ((sent codec top k tr).map codec.serialize) (read k tr)
    (T.links k).framed
  msgChan : ∀ i, ∀ x ∈ T.msgChan i, top.target x.2 = i ∧ x.1 ∈ read x.2 tr

variable {tr : List (Transport ι κ × TransportEvent ι κ)}

omit [DecidableEq ι] in
theorem faithful_init (gs : ι → GenesisDraw) : Faithful codec top [] (init gs : Transport ι κ) where
  controlChan _ _ hm := absurd hm List.not_mem_nil
  peers _ _ hk := absurd hk List.not_mem_nil
  origin _ _ hm := absurd hm List.not_mem_nil
  carries _ := FramedLink.carries_new header
  msgChan _ _ hx := absurd hx List.not_mem_nil

namespace Faithful

omit [DecidableEq ι] in
/-- A payload that a reader has delivered is a message that the node at the other end has sent. -/
theorem message_of_read (h : Faithful codec top tr T) {k : κ} {payload : Payload}
    (hp : payload ∈ read k tr) :
    ∃ m ∈ (T.nodes (top.source k)).server, codec.deserialize payload = some m := by
  obtain ⟨m, hm, rfl⟩ := List.mem_map.1 ((h.carries k).inOrder.subset hp)
  obtain ⟨hserver, -, hm⟩ := h.origin k m hm
  exact ⟨m, hserver, hm⟩

omit [DecidableEq ι] in
theorem of_taken (h : Faithful codec top tr T) {i : ι} {position : ℕ} {m : Message} {k : κ}
    (htaken : T.taken codec i position = some (m, k)) :
    top.target k = i ∧ m ∈ (T.nodes (top.source k)).server := by
  simp only [taken, Option.bind_eq_bind, Option.bind_eq_some_iff, Prod.exists, Option.some.injEq,
    Prod.mk.injEq] at htaken
  obtain ⟨payload, k', hpos, m', hm, rfl, rfl⟩ := htaken
  obtain ⟨htarget, hread⟩ := h.msgChan i _ (List.mem_of_getElem? hpos)
  obtain ⟨m, hserver, hm'⟩ := h.message_of_read hread
  obtain rfl := Option.some_inj.1 (hm'.symm.trans hm)
  exact ⟨htarget, hserver⟩

end Faithful

theorem server_subset {n n' : Node} {e : Event} (h : n.step e = some n') : n.server ⊆ n'.server := by
  rcases Node.server_step h with heq | ⟨m, -, heq⟩
  · rw [heq]
    exact List.Subset.refl _
  · rw [heq]
    exact List.subset_append_left ..

/-- What a step does to the nodes: nothing, or one of them takes a step. -/
theorem nodes_of_step (hstep : T.step codec top e = some T') :
    (T.label codec e = none ∧ T'.nodes = T.nodes) ∨
      ∃ i e' n', T.label codec e = some (i, e') ∧ (T.nodes i).step e' = some n' ∧
        T'.nodes = Function.update T.nodes i n' := by
  cases stepCase_of_step hstep with
  | node _ hn' => exact Or.inr ⟨_, _, _, rfl, hn', rfl⟩
  | panic htaken => exact Or.inl ⟨by rw [label, htaken]; rfl, rfl⟩
  | answer htaken hn' => exact Or.inr ⟨_, _, _, by rw [label, htaken]; rfl, hn', rfl⟩
  | announce htaken hn' => exact Or.inr ⟨_, _, _, by rw [label, htaken]; rfl, hn', rfl⟩
  | dispatch => exact Or.inl ⟨rfl, rfl⟩
  | register => exact Or.inl ⟨rfl, rfl⟩
  | drop => exact Or.inl ⟨rfl, rfl⟩
  | link => exact Or.inl ⟨rfl, rfl⟩
  | read => exact Or.inl ⟨rfl, rfl⟩

/-- What a node has sent stays sent. -/
theorem server_mono (hstep : T.step codec top e = some T') (i : ι) :
    (T.nodes i).server ⊆ (T'.nodes i).server := by
  rcases nodes_of_step hstep with ⟨-, hnodes⟩ | ⟨j, e', n', -, hn', hnodes⟩
  · rw [hnodes]
    exact List.Subset.refl _
  · rw [hnodes]
    rcases eq_or_ne i j with rfl | hi
    · rw [Function.update_self]
      exact server_subset hn'
    · rw [Function.update_of_ne hi]
      exact List.Subset.refl _

omit [Crypto] in
theorem mem_of_newMessages {n n' : Node} {m : Message} (hm : m ∈ newMessages n n') : m ∈ n'.server :=
  List.mem_of_mem_drop hm

/-- What a step hands to a write queue was sent by the node at this side. -/
theorem mem_server_of_handOver (h : Faithful codec top tr T) (hstep : T.step codec top e = some T')
    {k : κ} {m : Message} (hm : (k, m) ∈ T.handOver codec top e) :
    m ∈ (T'.nodes (top.source k)).server := by
  cases stepCase_of_step hstep with
  | node => exact absurd hm List.not_mem_nil
  | panic htaken =>
      rw [handOver, htaken] at hm
      exact absurd hm List.not_mem_nil
  | @answer i position m' k' n' htaken hn' hover =>
      rw [hover, List.mem_map] at hm
      obtain ⟨m, hm, hpair⟩ := hm
      obtain ⟨rfl, rfl⟩ := Prod.mk.inj hpair
      -- the answer goes back on the connection that the message has come on
      rw [top.source_back, (h.of_taken htaken).1]
      change m ∈ (Function.update T.nodes i n' i).server
      rw [Function.update_self]
      exact mem_of_newMessages hm
  | announce _ _ hover =>
      rw [hover] at hm
      exact absurd hm List.not_mem_nil
  | @dispatch i m' rest hchan hover =>
      rw [hover, List.mem_map] at hm
      obtain ⟨k', hk, hpair⟩ := hm
      obtain ⟨rfl, rfl⟩ := Prod.mk.inj hpair
      rw [h.peers i k' hk]
      exact h.controlChan i m' (hchan ▸ List.mem_cons_self ..)
  | register => exact absurd hm List.not_mem_nil
  | drop => exact absurd hm List.not_mem_nil
  | link => exact absurd hm List.not_mem_nil
  | read => exact absurd hm List.not_mem_nil

omit [DecidableEq ι] in
theorem sent_snoc (k : κ) :
    sent codec top k (tr ++ [(T, e)]) = sent codec top k tr ++ T.sends codec top e k := by
  simp [sent]

omit [Crypto] [DecidableEq ι] in
theorem read_snoc (k : κ) : read k (tr ++ [(T, e)]) = read k tr ++ T.reads k e := by
  simp [read]

omit [Crypto] [DecidableEq κ] in
theorem mem_controlChan_broadcast {i j : ι} {m : Message} {messages : List Message}
    (hm : m ∈ (T.broadcast j messages).controlChan i) :
    m ∈ T.controlChan i ∨ (i = j ∧ m ∈ messages) := by
  change m ∈ Function.update T.controlChan j (T.controlChan j ++ messages) i at hm
  rcases eq_or_ne i j with rfl | hi
  · rw [Function.update_self] at hm
    exact (List.mem_append.1 hm).imp id fun hm => ⟨rfl, hm⟩
  · rw [Function.update_of_ne hi] at hm
    exact Or.inl hm

/-- A control channel after a step: messages of before, and what the node has sent. -/
theorem mem_controlChan_of_step (hstep : T.step codec top e = some T') {i : ι} {m : Message}
    (hm : m ∈ T'.controlChan i) : m ∈ T.controlChan i ∨ m ∈ (T'.nodes i).server := by
  have hnew : ∀ {nodes : ι → Node} {j n n'}, i = j ∧ m ∈ newMessages n n' →
      m ∈ (Function.update nodes j n' i).server := by
    rintro nodes j n n' ⟨rfl, hm⟩
    rw [Function.update_self]
    exact mem_of_newMessages hm
  cases stepCase_of_step hstep with
  | node => exact (mem_controlChan_broadcast hm).imp id hnew
  | panic => exact Or.inl hm
  | answer => exact Or.inl hm
  | announce => exact (mem_controlChan_broadcast hm).imp id hnew
  | @dispatch j m' rest hchan =>
      change m ∈ Function.update T.controlChan j rest i at hm
      rcases eq_or_ne i j with rfl | hi
      · rw [Function.update_self] at hm
        exact Or.inl (hchan ▸ List.mem_cons_of_mem _ hm)
      · rw [Function.update_of_ne hi] at hm
        exact Or.inl hm
  | register => exact Or.inl hm
  | drop => exact Or.inl hm
  | link => exact Or.inl hm
  | read => exact Or.inl hm

theorem mem_peers_of_step (hstep : T.step codec top e = some T') {i : ι} {k : κ}
    (hk : k ∈ T'.peers i) : k ∈ T.peers i ∨ top.source k = i := by
  cases stepCase_of_step hstep with
  | register k' =>
      change k ∈ Function.update T.peers (top.source k') (k' :: T.peers (top.source k')) i at hk
      rcases eq_or_ne i (top.source k') with rfl | hi
      · rw [Function.update_self] at hk
        exact (List.mem_cons.1 hk).symm.imp id fun hk => by rw [hk]
      · rw [Function.update_of_ne hi] at hk
        exact Or.inl hk
  | drop k' =>
      change k ∈ Function.update T.peers (top.source k') ((T.peers (top.source k')).erase k') i at hk
      rcases eq_or_ne i (top.source k') with rfl | hi
      · rw [Function.update_self] at hk
        exact Or.inl (List.mem_of_mem_erase hk)
      · rw [Function.update_of_ne hi] at hk
        exact Or.inl hk
  | _ => exact Or.inl hk

/-- The channel of the network workers after a step: payloads of before, and what a reader has
delivered. -/
theorem mem_msgChan_of_step (hstep : T.step codec top e = some T') {i : ι} {x : Payload × κ}
    (hx : x ∈ T'.msgChan i) :
    x ∈ T.msgChan i ∨ (top.target x.2 = i ∧ x.1 ∈ T.reads x.2 e) := by
  have htake : ∀ {j position}, x ∈ (T.takeOut j position).msgChan i → x ∈ T.msgChan i := by
    intro j position hx
    change x ∈ Function.update T.msgChan j ((T.msgChan j).eraseIdx position) i at hx
    rcases eq_or_ne i j with rfl | hi
    · rw [Function.update_self] at hx
      exact List.mem_of_mem_eraseIdx hx
    · rwa [Function.update_of_ne hi] at hx
  cases stepCase_of_step hstep with
  | panic => exact Or.inl (htake hx)
  | answer => exact Or.inl (htake hx)
  | announce => exact Or.inl (htake hx)
  | @read k payload r hr =>
      change x ∈ Function.update T.msgChan (top.target k)
        (T.msgChan (top.target k) ++ [(payload, k)]) i at hx
      rcases eq_or_ne i (top.target k) with rfl | hi
      · rw [Function.update_self] at hx
        refine (List.mem_append.1 hx).imp id fun hx => ?_
        rw [List.mem_singleton.1 hx]
        refine ⟨rfl, ?_⟩
        rw [reads, if_pos rfl, hr]
        exact List.mem_singleton.2 rfl
      · rw [Function.update_of_ne hi] at hx
        exact Or.inl hx
  | _ => exact Or.inl hx

/-- **The step lemma.** -/
theorem faithful_step (h : Faithful codec top tr T)
    (hcodec : ∀ x ∈ T.handOver codec top e, codec.Transmits x.2)
    (hstep : T.step codec top e = some T') : Faithful codec top (tr ++ [(T, e)]) T' where
  controlChan i m hm :=
    (mem_controlChan_of_step hstep hm).elim (fun hm => server_mono hstep i (h.controlChan i m hm)) id
  peers i k hk := (mem_peers_of_step hstep hk).elim (h.peers i k) id
  origin k m hm := by
    rw [sent_snoc, List.mem_append] at hm
    rcases hm with hm | hm
    · exact (h.origin k m hm).imp (fun hm => server_mono hstep _ hm) id
    · rw [sends] at hm
      split at hm
      · have hover := mem_handedTo.1 hm
        exact ⟨mem_server_of_handOver h hstep hover, hcodec _ hover⟩
      · exact absurd hm List.not_mem_nil
  carries k := by
    obtain ⟨e', he', haccepted, hdelivered⟩ := linkStep_of_step hstep k
    have hsize : ∀ p ∈ (sent codec top k tr).map codec.serialize, p.length < header.bound := by
      intro p hp
      obtain ⟨m, hm, rfl⟩ := List.mem_map.1 hp
      exact (h.origin k m hm).2.1
    rw [sent_snoc, read_snoc, List.map_append, ← haccepted, ← hdelivered]
    exact (h.carries k).step hsize he'
  msgChan i x hx := by
    rw [read_snoc, List.mem_append]
    rcases mem_msgChan_of_step hstep hx with hx | ⟨htarget, hread⟩
    · exact (h.msgChan i x hx).imp id Or.inl
    · exact ⟨htarget, Or.inr hread⟩

/-! ### Runs -/

/-- The trace of the nodes in the trace of the nodes with their connections. -/
def networkTrace (codec : Bincode) (tr : List (Transport ι κ × TransportEvent ι κ)) :
    List (Network ι × (ι × Event)) :=
  Lts.Run.abstractTrace (fun T : Transport ι κ => T.nodes) (fun T e => T.label codec e) tr

variable [Fintype ι]

/-- A step of the nodes with their connections is a step of the network, or the nodes stay. -/
theorem network_step (h : Faithful codec top tr T) (hstep : T.step codec top e = some T') :
    (T.label codec e = none ∧ T'.nodes = T.nodes) ∨
      ∃ x, T.label codec e = some x ∧ Network.step T.nodes x = some T'.nodes := by
  refine (nodes_of_step hstep).imp id ?_
  rintro ⟨i, e', n', hlabel, hn', hnodes⟩
  refine ⟨_, hlabel, Lts.interleave_eq_some.2 ⟨?_, n', hn', hnodes⟩⟩
  intro m hm
  cases stepCase_of_step hstep with
  | node hreceived =>
      obtain ⟨rfl, rfl⟩ := Prod.mk.inj (Option.some_inj.1 hlabel)
      rw [hreceived] at hm
      cases hm
  | panic htaken =>
      rw [label, htaken] at hlabel
      cases hlabel
  | answer htaken =>
      rw [label, htaken] at hlabel
      obtain ⟨rfl, rfl⟩ := Prod.mk.inj (Option.some_inj.1 hlabel)
      obtain rfl := Option.some_inj.1 hm
      exact ⟨_, (h.of_taken htaken).2⟩
  | announce htaken =>
      rw [label, htaken] at hlabel
      obtain ⟨rfl, rfl⟩ := Prod.mk.inj (Option.some_inj.1 hlabel)
      obtain rfl := Option.some_inj.1 hm
      exact ⟨_, (h.of_taken htaken).2⟩
  | dispatch => cases hlabel
  | register => cases hlabel
  | drop => cases hlabel
  | link => cases hlabel
  | read => cases hlabel

/-- The messages that a run hands to write queues all fit in a frame and come back from their bytes. -/
def Transmits (codec : Bincode) (top : Topology ι κ)
    (tr : List (Transport ι κ × TransportEvent ι κ)) : Prop :=
  ∀ x ∈ tr, ∀ y ∈ x.1.handOver codec top x.2, codec.Transmits y.2

instance (codec : Bincode) (top : Topology ι κ) (tr : List (Transport ι κ × TransportEvent ι κ)) :
    Decidable (Transmits codec top tr) := inferInstanceAs (Decidable (∀ x ∈ tr, _))

theorem run_spec {gs : ι → GenesisDraw} (hrun : Run codec top (init gs) tr T)
    (hcodec : Transmits codec top tr) :
    Faithful codec top tr T ∧
      Network.Run (Network.init gs) (networkTrace codec tr) T.nodes :=
  hrun.refine (fun T => T.nodes) (fun T e => T.label codec e) (faithful_init gs)
    (fun _ _ _ _ h hC hstep => ⟨faithful_step h hC hstep, network_step h hstep⟩) hcodec

/-! ### A ping over a connection -/

/-- Two nodes with a connection. -/
def pair : Topology Bool Bool where
  source k := k
  target k := !k
  back k := !k
  source_back _ := rfl

/-- The bytes of a ping or a pong, by the number of the variant. -/
def pingBytes (variant : UInt8) : Payload :=
  [variant, 0, 0, 0, 9, 0, 0, 0, 0, 0, 0, 0] ++ [84, 101, 115, 116, 32, 112, 105, 110, 103]

/-- The part of `bincode` that a ping needs. -/
def pingCodec : Bincode where
  serialize m := if m = .ping "Test ping" then pingBytes 0
    else if m = .pong "Test ping" then pingBytes 1 else []
  deserialize payload := if payload = pingBytes 0 then some (.ping "Test ping")
    else if payload = pingBytes 1 then some (.pong "Test ping") else none

/-- The first node sends a ping, and the second one answers; the answer arrives in two pieces. -/
def pingPong : List (TransportEvent Bool Bool) :=
  [.register false, .register true, .node false .ping, .dispatch false, .link false .write,
    .link false (.arrive 25), .read false, .receive true 0, .link true .write,
    .link true (.arrive 10), .link true (.arrive 15), .read true, .receive false 0]

omit [Crypto] in
theorem exists_pingPong :
    letI := sampleCrypto
    let tr := Lts.replayTrace (step pingCodec pair) (init Network.twoGenesis) pingPong
    ∃ T, Run pingCodec pair (init Network.twoGenesis) tr T ∧ Transmits pingCodec pair tr ∧
      sent pingCodec pair true tr = [.pong "Test ping"] := by
  obtain ⟨T, hrun, -⟩ := @Lts.exists_run_of_replay _ _ (@step sampleCrypto Bool Bool _ _ pingCodec pair)
    pingPong (@init sampleCrypto Bool Bool Network.twoGenesis) (fun _ => True) (by decide +kernel)
  exact ⟨T, hrun, by decide +kernel, by decide +kernel⟩

/-! ### Refinement and delivery -/

/-- **The nodes over the transport refine the network.**  A payload that waits for a network worker
gives a message that the node at the other end has sent. -/
theorem refines_network {gs : ι → GenesisDraw} (hrun : Run codec top (init gs) tr T)
    (hcodec : Transmits codec top tr) :
    Network.Run (Network.init gs) (networkTrace codec tr) T.nodes ∧
      ∀ i, ∀ x ∈ T.msgChan i, top.target x.2 = i ∧
        ∃ m ∈ (T.nodes (top.source x.2)).server, codec.deserialize x.1 = some m := by
  obtain ⟨hfaithful, hnetwork⟩ := run_spec hrun hcodec
  refine ⟨hnetwork, fun i x hx => ?_⟩
  exact (hfaithful.msgChan i x hx).imp id hfaithful.message_of_read

omit [Crypto] in
/-- The nodes of that run as a network. -/
theorem refines_network_ping :
    letI := sampleCrypto
    let tr := Lts.replayTrace (step pingCodec pair) (init Network.twoGenesis) pingPong
    ∃ N, Network.Run (Network.init Network.twoGenesis) (networkTrace pingCodec tr) N := by
  obtain ⟨T, hrun, hcodec, -⟩ := exists_pingPong
  exact ⟨T.nodes, (@refines_network sampleCrypto Bool Bool _ _ _ _ _ _ _ _ hrun hcodec).1⟩

/-- **Each link delivers in order, at most once**, whatever breaks; and everything, when the writer
works, nothing was cut off and nothing is under way. -/
theorem delivers_in_order {gs : ι → GenesisDraw} (hrun : Run codec top (init gs) tr T)
    (hcodec : Transmits codec top tr) (k : κ) :
    ((read k tr).map codec.deserialize <+: (sent codec top k tr).map some) ∧
      ((T.links k).writing = true → (T.links k).cut = false → (T.links k).writeQueue = [] →
        (T.links k).wire = [] → (T.links k).reader.stream = [] →
          (read k tr).map codec.deserialize = (sent codec top k tr).map some) := by
  obtain ⟨hfaithful, -⟩ := run_spec hrun hcodec
  have hcarries := hfaithful.carries k
  have hback : ((sent codec top k tr).map codec.serialize).map codec.deserialize =
      (sent codec top k tr).map some := by
    rw [List.map_map]
    exact List.map_congr_left fun m hm => (hfaithful.origin k m hm).2.2
  constructor
  · rw [← hback]
    exact hcarries.inOrder.map _
  · intro hwriting hcut hqueue hwire hstream
    rw [hcarries.complete hwriting hcut hqueue hwire hstream, hback]

omit [Crypto] in
/-- The link on which the answer goes. -/
theorem delivers_in_order_ping :
    letI := sampleCrypto
    let tr := Lts.replayTrace (step pingCodec pair) (init Network.twoGenesis) pingPong
    (read true tr).map pingCodec.deserialize <+: [some (.pong "Test ping")] := by
  obtain ⟨T, hrun, hcodec, hsent⟩ := exists_pingPong
  have horder := (@delivers_in_order sampleCrypto Bool Bool _ _ _ _ _ _ _ _ hrun hcodec true).1
  rwa [hsent] at horder

end Transport

end BitcoinClient
