/-
**The peers of the server.**

`src/network/server.rs`: the dispatcher takes control signals off a channel, one after the other.  A signal
may establish a connection, which is then registered: its handle is stored in `peers`, under the address of
the other side, and a task starts to write to it.  When a write fails the task ends and sends `DroppedPeer`
with that address, and when the dispatcher comes to this signal it removes what is stored under the address.

Handles are told apart by their write queues, which are numbered here in the order in which the connections
are registered.  A `DroppedPeer` signal carries an address only; the model has the whole handle in it, for
the statements.

Main definitions:

* `BitcoinClient.Server.Context`, `BitcoinClient.Server.Event`, `BitcoinClient.Server.Context.step`;
* `BitcoinClient.Server.log` — what a run has registered and removed;
* `BitcoinClient.Server.RemovesOnly`, `BitcoinClient.Server.Overtaken`.

Main results:

* `BitcoinClient.Server.tracked_of_run` — `peers` is what the log leaves;
* `BitcoinClient.Server.disconnect_own_iff` — **when the end of a connection removes no other**.
-/

import BitcoinClient.Lts
import BitcoinClient.MapLog

set_option relaxedAutoImplicit false
set_option autoImplicit false

namespace BitcoinClient.Server

variable {Addr : Type} [DecidableEq Addr]

/-! ### The dispatcher -/

/-- The handle of a registered connection. -/
structure Handle (Addr : Type) where
  addr : Addr
  writeQueue : ℕ
  deriving DecidableEq

inductive ControlSignal (Addr : Type)
  | connectNewPeer (addr : Addr)
  | broadcastMessage
  | getNewPeer (addr : Addr)
  | droppedPeer (sender : Handle Addr)
  deriving DecidableEq

/-- The dispatcher with its channel, and the tasks that write. -/
structure Context (Addr : Type) where
  peers : Finmap fun _ : Addr => Handle Addr
  controlChan : List (ControlSignal Addr)
  writing : List (Handle Addr)
  registrations : ℕ

/-- A server without connections. -/
def Context.new : Context Addr :=
  { peers := ∅, controlChan := [], writing := [], registrations := 0 }

namespace Context

def send (s : Context Addr) (ctrl : ControlSignal Addr) : Context Addr :=
  { s with controlChan := s.controlChan ++ [ctrl] }

def register (s : Context Addr) (addr : Addr) : Context Addr :=
  let handle := { addr, writeQueue := s.registrations }
  { s with
    writing := handle :: s.writing
    -- insert the peer handle so that we can broadcast to this guy later
    peers := s.peers.insert addr handle
    registrations := s.registrations + 1 }

/-- The dispatcher processes the next signal; `established` tells whether the connection in it can be
registered.  An incoming connection that cannot ends the dispatcher. -/
def dispatchControl (established : Bool) (s : Context Addr) : Option (Context Addr) :=
  match s.controlChan with
  | [] => none
  | .connectNewPeer addr :: rest =>
    let s := { s with controlChan := rest }
    some (if established then s.register addr else s)
  | .broadcastMessage :: rest => some { s with controlChan := rest }
  | .getNewPeer addr :: rest =>
    if established then some ({ s with controlChan := rest }.register addr) else none
  | .droppedPeer sender :: rest =>
    some { s with controlChan := rest, peers := s.peers.erase sender.addr }

end Context

/-- Another thread sends a signal, the write of a task fails, or the dispatcher goes on. -/
inductive Event (Addr : Type)
  | connect (addr : Addr)
  | broadcast
  | incoming (addr : Addr)
  | writeFails (handle : Handle Addr)
  | dispatch (established : Bool)

def Context.step (s : Context Addr) : Event Addr → Option (Context Addr)
  | .connect addr => some (s.send (.connectNewPeer addr))
  | .broadcast => some (s.send .broadcastMessage)
  | .incoming addr => some (s.send (.getNewPeer addr))
  | .writeFails handle =>
    -- the peer is disconnected
    if handle ∈ s.writing then
      some ({ s with writing := s.writing.erase handle }.send (.droppedPeer handle))
    else none
  | .dispatch established => s.dispatchControl established

/-- The runs of the server. -/
abbrev Run : Context Addr → List (Context Addr × Event Addr) → Context Addr → Prop :=
  Lts.Run fun s e s' => s.step e = some s'

/-! ### The log -/

abbrev Entry (Addr : Type) := MapLog.Entry Addr (Handle Addr)

/-- What the dispatcher writes to `peers` when it processes a signal. -/
def ControlSignal.entry (registrations : ℕ) (established : Bool) :
    ControlSignal Addr → Option (Entry Addr)
  | .connectNewPeer addr | .getNewPeer addr =>
    if established then some (.write addr { addr, writeQueue := registrations }) else none
  | .broadcastMessage => none
  | .droppedPeer sender => some (.clear sender.addr)

def entry : Context Addr × Event Addr → Option (Entry Addr)
  | (s, .dispatch established) =>
    s.controlChan.head?.bind (ControlSignal.entry s.registrations established)
  | _ => none

/-- The connections that a run has registered, and the addresses it has removed. -/
def log (tr : List (Context Addr × Event Addr)) : List (Entry Addr) := tr.filterMap entry

/-- What a step does to `peers`: nothing, a registration or a removal. -/
inductive Effect (s s' : Context Addr) (e : Event Addr) : Prop
  | quiet (hentry : entry (s, e) = none) (hpeers : s'.peers = s.peers)
      (hcount : s'.registrations = s.registrations) (hwriting : ∀ h ∈ s'.writing, h ∈ s.writing)
      (hchan : ∀ h, .droppedPeer h ∈ s'.controlChan → .droppedPeer h ∈ s.controlChan ∨ h ∈ s.writing)
  | registered (addr : Addr)
      (hentry : entry (s, e) = some (.write addr { addr, writeQueue := s.registrations }))
      (hpeers : s'.peers = s.peers.insert addr { addr, writeQueue := s.registrations })
      (hcount : s'.registrations = s.registrations + 1)
      (hwriting : s'.writing = { addr, writeQueue := s.registrations } :: s.writing)
      (hchan : ∀ h, .droppedPeer h ∈ s'.controlChan → .droppedPeer h ∈ s.controlChan)
  | removed (sender : Handle Addr) (hentry : entry (s, e) = some (.clear sender.addr))
      (hpeers : s'.peers = s.peers.erase sender.addr) (hcount : s'.registrations = s.registrations)
      (hwriting : s'.writing = s.writing)
      (hchan : ∀ h, .droppedPeer h ∈ s'.controlChan → .droppedPeer h ∈ s.controlChan)

/-- **What a step can do.** -/
theorem effect_of_step {s s' : Context Addr} {e : Event Addr} (h : s.step e = some s') :
    Effect s s' e := by
  cases e with
  | connect addr | broadcast | incoming addr =>
      obtain rfl := Option.some_inj.1 h
      refine .quiet rfl rfl rfl (fun _ hh => hh) fun handle hmem => Or.inl ?_
      simpa [Context.send] using hmem
  | writeFails handle =>
      obtain ⟨hmem, rfl⟩ : handle ∈ s.writing ∧ _ := by
        simpa only [Context.step, Option.ite_none_right_eq_some, Option.some_inj] using h
      refine .quiet rfl rfl rfl (fun _ hh => List.mem_of_mem_erase hh) fun handle' hmem' => ?_
      rcases List.mem_append.1 hmem' with hold | hnew
      · exact Or.inl hold
      · obtain rfl : handle' = handle := by simpa using hnew
        exact Or.inr hmem
  | dispatch established =>
      rw [Context.step, Context.dispatchControl] at h
      cases hchan : s.controlChan with
      | nil =>
          rw [hchan] at h
          cases h
      | cons ctrl rest =>
          have hrest : ∀ handle, ControlSignal.droppedPeer handle ∈ rest →
              ControlSignal.droppedPeer handle ∈ s.controlChan := fun handle hmem => by
            rw [hchan]
            exact List.mem_cons_of_mem _ hmem
          rw [hchan] at h
          cases ctrl with
          | connectNewPeer addr =>
              obtain rfl := Option.some_inj.1 h
              cases established with
              | false =>
                  exact .quiet (by simp [entry, hchan, ControlSignal.entry]) rfl rfl (fun _ hh => hh)
                    fun handle hmem => Or.inl (hrest handle hmem)
              | true =>
                  exact .registered addr (by simp [entry, hchan, ControlSignal.entry]) rfl rfl rfl
                    hrest
          | broadcastMessage =>
              obtain rfl := Option.some_inj.1 h
              exact .quiet (by simp [entry, hchan, ControlSignal.entry]) rfl rfl (fun _ hh => hh)
                fun handle hmem => Or.inl (hrest handle hmem)
          | getNewPeer addr =>
              obtain ⟨rfl, hs'⟩ := Option.ite_none_right_eq_some.1 h
              obtain rfl := Option.some_inj.1 hs'
              exact .registered addr (by simp [entry, hchan, ControlSignal.entry]) rfl rfl rfl hrest
          | droppedPeer sender =>
              obtain rfl := Option.some_inj.1 h
              exact .removed sender (by simp [entry, hchan, ControlSignal.entry]) rfl rfl rfl hrest

/-- What a run keeps: `peers` is what the log leaves, the handles are numbered in the order of the log, and
whoever writes or has sent `DroppedPeer` has been registered. -/
structure Tracked (l : List (Entry Addr)) (s : Context Addr) : Prop where
  peers : MapLog.Represents l s.peers
  ordered : (l.filterMap MapLog.Entry.value).Pairwise fun h h' => h.writeQueue < h'.writeQueue
  numbered : ∀ h ∈ l.filterMap MapLog.Entry.value, h.writeQueue < s.registrations
  own : ∀ a h, .write a h ∈ l → h.addr = a
  writing : ∀ h ∈ s.writing, .write h.addr h ∈ l
  dropped : ∀ h, .droppedPeer h ∈ s.controlChan → .write h.addr h ∈ l

theorem tracked_new : Tracked [] (.new : Context Addr) where
  peers := MapLog.represents_nil
  ordered := List.Pairwise.nil
  numbered _ h := absurd h List.not_mem_nil
  own _ _ h := absurd h List.not_mem_nil
  writing _ h := absurd h List.not_mem_nil
  dropped _ h := absurd h List.not_mem_nil

theorem Tracked.step {l : List (Entry Addr)} {s s' : Context Addr} {e : Event Addr}
    (hs : Tracked l s) (h : s.step e = some s') : Tracked (l ++ (entry (s, e)).toList) s' := by
  cases effect_of_step h with
  | quiet hentry hpeers hcount hwriting hchan =>
      rw [hentry, Option.toList_none, List.append_nil]
      exact
        { peers := hpeers ▸ hs.peers
          ordered := hs.ordered
          numbered := hcount ▸ hs.numbered
          own := hs.own
          writing := fun h hh => hs.writing h (hwriting h hh)
          dropped := fun h hh => (hchan h hh).elim (hs.dropped h) (hs.writing h) }
  | registered addr hentry hpeers hcount hwriting hchan =>
      rw [hentry, Option.toList_some]
      refine ⟨?_, ?_, ?_, ?_, ?_, fun h hh => List.mem_append_left _ (hs.dropped h (hchan h hh))⟩
      · rw [hpeers]
        exact hs.peers.concat (.write addr { addr, writeQueue := s.registrations })
      · rw [List.filterMap_append, List.pairwise_append]
        refine ⟨hs.ordered, List.pairwise_singleton .., fun h hh h' hh' => ?_⟩
        rw [List.mem_singleton.1 hh']
        exact hs.numbered h hh
      · intro h hh
        rw [List.filterMap_append] at hh
        rcases List.mem_append.1 hh with hh | hh
        · exact (hs.numbered h hh).trans_le (by omega)
        · rw [List.mem_singleton.1 hh, hcount]
          exact Nat.lt_succ_self _
      · intro a h hh
        rcases List.mem_append.1 hh with hh | hh
        · exact hs.own a h hh
        · cases List.mem_singleton.1 hh
          rfl
      · intro h hh
        rw [hwriting] at hh
        rcases List.mem_cons.1 hh with rfl | hh
        · exact List.mem_append_right _ (List.mem_singleton.2 rfl)
        · exact List.mem_append_left _ (hs.writing h hh)
  | removed sender hentry hpeers hcount hwriting hchan =>
      rw [hentry, Option.toList_some]
      have hvalues : (l ++ [MapLog.Entry.clear sender.addr]).filterMap MapLog.Entry.value =
          l.filterMap MapLog.Entry.value := by
        rw [List.filterMap_append]
        exact List.append_nil _
      refine ⟨?_, hvalues ▸ hs.ordered, ?_, fun a h hh => ?_, fun h hh => ?_, fun h hh => ?_⟩
      · rw [hpeers]
        exact hs.peers.concat (.clear sender.addr)
      · rw [hvalues, hcount]
        exact hs.numbered
      · rcases List.mem_append.1 hh with hh | hh
        · exact hs.own a h hh
        · cases List.mem_singleton.1 hh
      · exact List.mem_append_left _ (hs.writing h (hwriting ▸ hh))
      · exact List.mem_append_left _ (hs.dropped h (hchan h hh))

/-- **`peers` is what the log leaves**, in every run. -/
theorem tracked_of_run {tr : List (Context Addr × Event Addr)} {s : Context Addr}
    (h : Run .new tr s) : Tracked (log tr) s := by
  induction h with
  | nil => exact tracked_new
  | @snoc tr m n e hr hs ih =>
      have hlog : log (tr ++ [(m, e)]) = log tr ++ (entry (m, e)).toList := by
        rw [log, List.filterMap_append]
        cases hentry : entry (m, e) <;> simp [log, hentry]
      rw [hlog]
      exact ih.step hs

/-! ### The end of a connection -/

/-- All handles stay but that of `c`. -/
def RemovesOnly (s s' : Context Addr) (c : Handle Addr) : Prop :=
  ∀ a h, s.peers.lookup a = some h → s'.peers.lookup a = some h ∨ h = c

/-- After `c` another connection to its address has been registered, and nothing has been removed at this
address since. -/
def Overtaken (l : List (Entry Addr)) (c : Handle Addr) : Prop :=
  ∃ l₁ h l₂, l = l₁ ++ .write c.addr h :: l₂ ∧ c.writeQueue < h.writeQueue ∧ .clear c.addr ∉ l₂

/-- The order in which two handles have been registered. -/
theorem Tracked.lt {l₁ l₂ : List (Entry Addr)} {a b : Addr} {h h' : Handle Addr} {s : Context Addr}
    (hs : Tracked (l₁ ++ .write a h :: l₂) s) (hmem : .write b h' ∈ l₂) :
    h.writeQueue < h'.writeQueue := by
  have hordered := hs.ordered
  have hcons : (MapLog.Entry.write a h :: l₂).filterMap MapLog.Entry.value =
    h :: l₂.filterMap MapLog.Entry.value := rfl
  rw [List.filterMap_append, hcons] at hordered
  exact (List.pairwise_cons.1 (List.pairwise_append.1 hordered).2.1).1 h'
    (List.mem_filterMap.2 ⟨_, hmem, rfl⟩)

/-- **A removal spares the others** exactly if the sender has not been overtaken. -/
theorem Tracked.removesOnly_iff {l : List (Entry Addr)} {s s' : Context Addr} (hs : Tracked l s)
    {c : Handle Addr} (hc : .write c.addr c ∈ l) (hs' : s'.peers = s.peers.erase c.addr) :
    RemovesOnly s s' c ↔ ¬ Overtaken l c := by
  constructor
  · rintro honly ⟨l₁, h, l₂, rfl, hlt, hclear⟩
    -- the address has a value, which has been registered after `c`
    obtain ⟨h', hcurrent, hlater⟩ := MapLog.exists_current l₁ c.addr h hclear
    have hle : h.writeQueue ≤ h'.writeQueue := by
      rcases hlater with rfl | hmem
      · exact Nat.le_refl _
      · exact (hs.lt hmem).le
    rcases honly c.addr h' ((hs.peers _ _).2 hcurrent) with hstays | rfl
    · rw [hs', Finmap.lookup_erase] at hstays
      cases hstays
    · omega
  · intro hnot a h hlookup
    rw [hs']
    by_cases ha : a = c.addr
    · right
      subst ha
      obtain ⟨l₁, l₂, rfl, hothers⟩ := (hs.peers _ _).1 hlookup
      rcases List.mem_append.1 hc with hbefore | hafter
      · -- `h` is registered after `c`
        obtain ⟨l₃, l₄, rfl⟩ := List.append_of_mem hbefore
        refine absurd ⟨_, h, l₂, rfl, ?_, fun hclear => hothers _ hclear rfl⟩ hnot
        rw [List.append_assoc, List.cons_append] at hs
        exact hs.lt (List.mem_append_right _ (List.mem_cons_self ..))
      · rcases List.mem_cons.1 hafter with heq | hmem
        · cases heq
          rfl
        · exact absurd rfl (hothers _ hmem)
    · exact Or.inl ((Finmap.lookup_erase_ne ha).trans hlookup)

/-- **When the end of a connection removes no other.**  In every run, the `DroppedPeer` signals remove the
handle of their sender only, exactly if at none of them another connection to the same address has been
registered after the sender without a removal at this address since. -/
theorem disconnect_own_iff {tr : List (Context Addr × Event Addr)} {s : Context Addr}
    (hrun : Run .new tr s) :
    (∀ tr₁ m established tr₂ c, tr = tr₁ ++ (m, .dispatch established) :: tr₂ →
      m.controlChan.head? = some (.droppedPeer c) →
        ∀ m', m.step (.dispatch established) = some m' → RemovesOnly m m' c) ↔
      ∀ tr₁ m established tr₂ c, tr = tr₁ ++ (m, .dispatch established) :: tr₂ →
        m.controlChan.head? = some (.droppedPeer c) → ¬ Overtaken (log tr₁) c := by
  refine forall_congr' fun tr₁ => forall_congr' fun m => forall_congr' fun established =>
    forall_congr' fun tr₂ => forall_congr' fun c => forall_congr' fun htr =>
      forall_congr' fun hhead => ?_
  subst htr
  obtain ⟨m', hrun₁, -, -⟩ := hrun.split
  obtain ⟨rest, hchan⟩ := List.head?_eq_some_iff.1 hhead
  have hstep : m.step (.dispatch established) =
      some { m with controlChan := rest, peers := m.peers.erase c.addr } := by
    rw [Context.step, Context.dispatchControl, hchan]
  have htracked := tracked_of_run hrun₁
  have hc : .write c.addr c ∈ log tr₁ := htracked.dropped c (by rw [hchan]; exact List.mem_cons_self ..)
  have hiff : RemovesOnly m { m with controlChan := rest, peers := m.peers.erase c.addr } c ↔
      ¬ Overtaken (log tr₁) c := htracked.removesOnly_iff hc rfl
  rw [hstep, ← hiff]
  constructor
  · exact fun h => h _ rfl
  · intro h m' hm'
    rw [← Option.some_inj.1 hm']
    exact h

/-- A connection to the address 1 fails and is removed, then the next one to this address is registered, and fails
too. -/
def reconnectEvents : List (Event ℕ) :=
  [.connect 1, .dispatch true, .writeFails { addr := 1, writeQueue := 0 }, .dispatch true,
    .connect 1, .dispatch true, .writeFails { addr := 1, writeQueue := 1 }, .dispatch true]

/-- Each connection has been removed before there is another one to its address. -/
theorem disconnect_own_iff_reconnect :
    let tr := Lts.replayTrace Context.step (.new : Context ℕ) reconnectEvents
    ∀ tr₁ m established tr₂ c, tr = tr₁ ++ (m, .dispatch established) :: tr₂ →
      m.controlChan.head? = some (.droppedPeer c) →
        ∀ m', m.step (.dispatch established) = some m' → RemovesOnly m m' c := by
  intro tr
  obtain ⟨s, hrun, -⟩ := @Lts.exists_run_of_replay _ _ (@Context.step ℕ _) reconnectEvents .new
    (fun s => s.registrations = 2) (by decide +kernel)
  refine (disconnect_own_iff hrun).2 fun tr₁ m established tr₂ c htr hhead hovertaken => ?_
  -- a connection that is removed is the one registered last
  have hlast : ∀ p ∈ tr, (p.1.controlChan.head?.all fun signal => match signal with
      | .droppedPeer c => p.1.registrations ≤ c.writeQueue + 1
      | _ => true) = true := by decide +kernel
  obtain ⟨l₁, h, l₂, hlog, hlt, -⟩ := hovertaken
  have hmem : h ∈ (log tr₁).filterMap MapLog.Entry.value := by
    rw [hlog, List.filterMap_append]
    exact List.mem_append_right _ (List.mem_cons_self ..)
  have hrun' := hrun
  rw [htr] at hrun'
  obtain ⟨-, hrun₁, -⟩ := hrun'.split
  have hnumber := (tracked_of_run hrun₁).numbered h hmem
  have hm : (m, .dispatch established) ∈ tr := by
    change _ ∈ Lts.replayTrace ..
    rw [htr]
    exact List.mem_append_right _ (List.mem_cons_self ..)
  have hregistered : m.registrations ≤ c.writeQueue + 1 := by
    have hall := hlast _ hm
    rw [hhead] at hall
    simpa using hall
  omega

/-- A connection to the address 1 fails while the next one to this address is requested. -/
def sampleEvents : List (Event ℕ) :=
  [.connect 1, .dispatch true, .connect 1, .writeFails { addr := 1, writeQueue := 0 },
    .dispatch true]

/-- The server then loses the handle of the second connection, which is still there. -/
theorem disconnect_not_own :
    ¬ ∀ tr (m m' : Context ℕ) established c, Run .new tr m →
      m.controlChan.head? = some (.droppedPeer c) → m.step (.dispatch established) = some m' →
        RemovesOnly m m' c := by
  intro h
  obtain ⟨m, hrun, hhead, hpeers, m', hm', hremoved⟩ := @Lts.exists_run_of_replay _ _
    (@Context.step ℕ _) sampleEvents .new
    (fun m => m.controlChan.head? = some (.droppedPeer { addr := 1, writeQueue := 0 }) ∧
      m.peers.lookup 1 = some { addr := 1, writeQueue := 1 } ∧
        ∃ m' ∈ m.step (.dispatch true), m'.peers.lookup 1 = none) (by decide +kernel)
  rcases h _ m m' true _ hrun hhead hm' 1 _ hpeers with hstays | hsame
  · rw [hremoved] at hstays
    cases hstays
  · exact absurd hsame (by decide)

end BitcoinClient.Server
