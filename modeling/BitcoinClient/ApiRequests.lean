/-
**The requests to the API.**

A request is a URL.  The path says what is asked for, and the query has the parameters; a parameter that is
given more than once counts with its last value.  A request that cannot be understood is refused with a
response that says why, and nothing else happens: it takes no mutex and sends no signal.  A request that is
understood is answered once, when it is carried out: with the store as it is while the request has its
mutex, or with `ok`.  Two kinds of request are not answered: one for the transaction generator, and one that
starts a miner that has ended, which panics when it sends its signal.

Main definitions:

* `BitcoinClient.Api.Url`, `BitcoinClient.Api.Response`, `BitcoinClient.Api.Call` — requests, responses, and
  what is asked for;
* `BitcoinClient.Api.route` — what a URL asks for, or how it is refused;
* `BitcoinClient.Api.Call.chainResponse` — the responses that are made from the store;
* `BitcoinClient.ApiStage.response` — the response that the thread of a request sends in a step;
* `BitcoinClient.Api.Url.Asks` — the URLs that ask for something.

Main results:

* `BitcoinClient.Api.route_eq_ok_iff` — which URLs are understood;
* `BitcoinClient.H256.toString_injective` — the text of a hash determines it;
* `BitcoinClient.Threads.requests_answered` — **every request is answered once, or not at all**.
-/

import BitcoinClient.ChainOrder
import BitcoinClient.LengthPrefix
import BitcoinClient.NumberTexts
import BitcoinClient.ThreadRefinement
import BitcoinClient.TxGenerator

set_option relaxedAutoImplicit false
set_option autoImplicit false

namespace BitcoinClient

open NumberTexts

/-! ### Texts -/

/-- The bytes of a hash in hexadecimal; with a precision, the last bytes only. -/
def H256.fmt (precision : Option ℕ) (h : H256) : String :=
  let start :=
    match precision with
    | some precision => if 64 ≤ precision then 0 else 32 - precision / 2
    | none => 0
  String.ofList (hexText ((LengthPrefix.toBeBytes 32 h.toNat).drop start))

def H256.toString (h : H256) : String := h.fmt none

/-- The bytes of an address, as a list of numbers. -/
def Address.toJson (addr : Address) : String :=
  "[" ++
    String.intercalate "," ((LengthPrefix.toBeBytes 20 addr.toNat).map fun b => b.toNat.repr) ++ "]"

/-- **The text of a hash determines it.** -/
theorem H256.toString_injective : Function.Injective H256.toString := by
  intro h h' heq
  have hbytes := hexText_injective (String.ofList_injective heq)
  rw [List.drop_zero, List.drop_zero] at hbytes
  have hvalue (k : H256) : LengthPrefix.fromBeBytes (LengthPrefix.toBeBytes 32 k.toNat) = k.toNat := by
    rw [LengthPrefix.fromBeBytes_toBeBytes]
    exact Nat.mod_eq_of_lt k.isLt
  refine BitVec.eq_of_toNat_eq ?_
  rw [← hvalue h, hbytes, hvalue h']

namespace Api

/-! ### Requests and responses -/

/-- The body of a response. -/
inductive Body
  | result (success : Bool) (message : String)
  | strings (strings : List String)
  | stringLists (lists : List (List String))
  deriving DecidableEq

structure Response where
  statusCode : UInt16
  body : Body
  deriving DecidableEq

def respondResult (success : Bool) (message : String) : Response :=
  { statusCode := 200, body := .result success message }

def respondJson (message : Body) : Response := { statusCode := 200, body := message }

structure Url where
  path : String
  queryPairs : List (String × String)

/-- The parameters, collected in a map. -/
def Url.params (url : Url) : Finmap fun _ : String => String :=
  url.queryPairs.foldl (fun params pair => params.insert pair.1 pair.2) ∅

/-- What a request asks for. -/
inductive Call
  | minerStart (lambda : UInt64)
  | txGeneratorStart (theta : UInt64)
  | networkPing
  | longestChain
  | longestChainTx
  | state (block : UInt64)
  deriving DecidableEq

/-- A number among the parameters; `label` is its name in the responses. -/
def Url.number (url : Url) (name label : String) : Except Response UInt64 :=
  match url.params.lookup name with
  | none => .error (respondResult false ("missing " ++ label))
  | some v =>
    match parseUnsigned (2 ^ 64) v.toList with
    | .ok n => .ok (UInt64.ofNat n)
    | .error e =>
      .error (respondResult false ("error parsing " ++ label ++ ": " ++ e.toString))

/-- What a URL asks for, or how it is refused; a text that is no URL comes with the error of its
parser. -/
def route (url : Except String Url) : Except Response Call :=
  match url with
  | .error e => .error (respondResult false ("error parsing url: " ++ e))
  | .ok url =>
    match url.path with
    | "/miner/start" => (url.number "lambda" "lambda").map .minerStart
    | "/tx-generator/start" => (url.number "theta" "theta").map .txGeneratorStart
    | "/network/ping" => .ok .networkPing
    | "/blockchain/longest-chain" => .ok .longestChain
    | "/blockchain/longest-chain-tx" => .ok .longestChainTx
    | "/blockchain/longest-chain-tx-count" => .error (respondResult false "unimplemented!")
    | "/blockchain/state" => (url.number "block" "block count").map .state
    | _ => .error { statusCode := 404, body := .result false "endpoint not found" }

/-- What the thread of the request does first. -/
def request (url : Except String Url) : Request :=
  match route url with
  | .ok (.minerStart lambda) => .minerStart lambda
  | .ok (.txGeneratorStart _) => .txGeneratorStart
  | .ok .networkPing => .networkPing
  | .ok .longestChain | .ok .longestChainTx | .ok (.state _) => .blockchain
  | .error _ => .other

/-! ### The URLs that are understood -/

/-- The last value of a parameter is a numeral of the number. -/
def Url.Gives (url : Url) (name : String) (n : UInt64) : Prop :=
  ∃ v, (url.queryPairs.reverse.find? fun pair => pair.1 = name).map Prod.snd = some v ∧
    Numeral n.toNat v.toList

/-- The URL asks for it. -/
def Url.Asks (url : Url) : Call → Prop
  | .minerStart lambda => url.path = "/miner/start" ∧ url.Gives "lambda" lambda
  | .txGeneratorStart theta => url.path = "/tx-generator/start" ∧ url.Gives "theta" theta
  | .networkPing => url.path = "/network/ping"
  | .longestChain => url.path = "/blockchain/longest-chain"
  | .longestChainTx => url.path = "/blockchain/longest-chain-tx"
  | .state block => url.path = "/blockchain/state" ∧ url.Gives "block" block

/-- The last value counts. -/
theorem Url.lookup_params (url : Url) (name : String) :
    url.params.lookup name = (url.queryPairs.reverse.find? fun pair => pair.1 = name).map Prod.snd := by
  rw [params]
  induction url.queryPairs using List.reverseRecOn with
  | nil => simp
  | append_singleton pairs pair ih =>
      rw [List.foldl_append, List.foldl_cons, List.foldl_nil, List.reverse_append, List.reverse_singleton,
        List.singleton_append, List.find?_cons]
      by_cases hname : pair.1 = name
      · rw [hname, Finmap.lookup_insert]
        simp
      · rw [Finmap.lookup_insert_of_ne _ (Ne.symm hname), ih]
        simp [hname]

theorem Url.number_eq_ok_iff {url : Url} {name label : String} {n : UInt64} :
    url.number name label = .ok n ↔ url.Gives name n := by
  rw [number, Url.Gives, ← url.lookup_params]
  cases url.params.lookup name with
  | none => simp
  | some v =>
      dsimp only
      cases hread : parseUnsigned (2 ^ 64) v.toList with
      | ok m =>
          obtain ⟨hnumeral, hlt⟩ := (parseUnsigned_eq_ok_iff (by decide)).1 hread
          constructor
          · intro h
            rw [Except.ok.injEq] at h
            refine ⟨v, rfl, ?_⟩
            rwa [← h, UInt64.toNat_ofNat_of_lt' hlt]
          · rintro ⟨v', hv', hnumeral'⟩
            rw [Option.some_inj] at hv'
            subst hv'
            have hread' := (parseUnsigned_eq_ok_iff (by decide)).2 ⟨hnumeral', n.toNat_lt⟩
            rw [hread, Except.ok.injEq] at hread'
            subst hread'
            exact congrArg Except.ok (UInt64.ofNat_toNat)
      | error e =>
          refine iff_of_false (by simp) ?_
          rintro ⟨v', hv', hnumeral'⟩
          rw [Option.some_inj] at hv'
          subst hv'
          have hread' := (parseUnsigned_eq_ok_iff (by decide)).2 ⟨hnumeral', n.toNat_lt⟩
          rw [hread] at hread'
          cases hread'

theorem map_eq_ok_iff {α β ε : Type} {x : Except ε α} {f : α → β} {b : β} :
    x.map f = .ok b ↔ ∃ a, x = .ok a ∧ f a = b := by
  cases x with
  | error e => simp [Except.map]
  | ok a => simp [Except.map]

/-- A request that asks for something. -/
def AsksFor (url : Except String Url) (call : Call) : Prop := ∃ u, url = .ok u ∧ u.Asks call

/-- **Which requests are understood**, and as what. -/
theorem route_eq_ok_iff {url : Except String Url} {call : Call} :
    route url = .ok call ↔ AsksFor url call := by
  cases url with
  | error e => simp [route, AsksFor]
  | ok url =>
      have hasks : AsksFor (.ok url) call ↔ url.Asks call := by simp [AsksFor]
      rw [hasks]
      unfold route
      dsimp only
      split
      -- one case for each path
      all_goals
        cases call <;> simp_all [Url.Asks, map_eq_ok_iff, Url.number_eq_ok_iff]

/-- A request that is refused. -/
theorem not_asksFor_of_error {url : Except String Url} {r : Response} (h : route url = .error r)
    (call : Call) : ¬ AsksFor url call := by
  rw [← route_eq_ok_iff, h]
  simp

theorem map_eq_error_iff {α β ε : Type} {x : Except ε α} {f : α → β} {e : ε} :
    x.map f = .error e ↔ x = .error e := by
  cases x with
  | error e' => simp [Except.map]
  | ok a => simp [Except.map]

theorem Url.number_error {url : Url} {name label : String} {r : Response}
    (h : url.number name label = .error r) : ∃ message, r.body = .result false message := by
  unfold number at h
  split at h
  · cases h
    exact ⟨_, rfl⟩
  · split at h
    · cases h
    · cases h
      exact ⟨_, rfl⟩

/-- A refusal is no success. -/
theorem body_of_route_error {url : Except String Url} {r : Response} (h : route url = .error r) :
    ∃ message, r.body = .result false message := by
  unfold route at h
  split at h
  · cases h
    exact ⟨_, rfl⟩
  · split at h
    all_goals first
      | exact Url.number_error (map_eq_error_iff.1 h)
      | cases h
        exact ⟨_, rfl⟩
      | cases h

end Api

variable [Crypto]

open Locks

/-! ### What the responses are made from -/

/-- An order in which a state may be iterated: every account once. -/
def State.IterOrder (s : State) (addrs : List Address) : Prop := addrs.Nodup ∧ ∀ a, a ∈ addrs ↔ a ∈ s

namespace Api

/-- The text of an entry of a state. -/
def stateString (targetState : State) (addr : Address) : Option String :=
  (targetState.lookup addr).map fun x =>
    addr.toJson ++ " " ++ x.1.toNat.repr ++ " " ++ x.2.toNat.repr

/-- The responses that are made from the store, with the orders in which the blocks and the accounts are
iterated; `none` when the walk from the tip has not ended after so many rounds. -/
def Call.chainResponse (call : Call) (blockchain : Blockchain) (order : List H256) (rounds : ℕ)
    (addrs : State → List Address) : Option Response :=
  match call with
  | .longestChain =>
    (Api.longestChain blockchain order rounds).map fun v => respondJson (.strings (v.map H256.toString))
  | .longestChainTx =>
    (Api.longestChainTx blockchain order rounds).map fun allTx =>
      respondJson (.stringLists (allTx.map fun blockTxs => blockTxs.map H256.toString))
  | .state block => do
    let longestChainHashes ← blockchain.allBlocksInLongestChain order rounds
    if longestChainHashes.length ≤ block.toNat then
      some (respondResult false "block count is too large")
    else
      let targetHash ← longestChainHashes[longestChainHashes.length - block.toNat - 1]?
      match blockchain.getBlockState targetHash with
      | none => some (respondResult false "invalid block count")
      | some targetState =>
        some (respondJson (.strings ((addrs targetState).filterMap (stateString targetState))))
  | .minerStart _ | .txGeneratorStart _ | .networkPing => none

/-- The request reads the store. -/
def Call.Reads : Call → Prop
  | .longestChain | .longestChainTx | .state _ => True
  | .minerStart _ | .txGeneratorStart _ | .networkPing => False

omit [Crypto] in
/-- The walk visits stored blocks only. -/
theorem exists_getBlock_of_mem {c : Blockchain} {order : List H256} {rounds : ℕ} {v : List H256}
    (hv : c.allBlocksInLongestChain order rounds = some v) {h : H256} (hh : h ∈ v) :
    ∃ b, c.getBlock h = some b := by
  rw [Blockchain.allBlocksInLongestChain, Blockchain.chainFrom_eq] at hv
  rw [← Pointers.walk_of_path hv] at hh
  have hsome := Pointers.isSome_of_mem_walk hh
  rw [Blockchain.parentAt, Option.isSome_map] at hsome
  exact Option.isSome_iff_exists.1 hsome

/-- There is a response when the walk has ended. -/
theorem Call.exists_chainResponse {call : Call} (hreads : call.Reads) {c : Blockchain}
    {order : List H256} {rounds : ℕ} {v : List H256}
    (hv : c.allBlocksInLongestChain order rounds = some v) (addrs : State → List Address) :
    ∃ r, call.chainResponse c order rounds addrs = some r := by
  cases call with
  | minerStart | txGeneratorStart | networkPing => exact hreads.elim
  | longestChain => exact ⟨_, by rw [chainResponse, Api.longestChain, hv]; rfl⟩
  | longestChainTx =>
      have hmap : Api.longestChainTx c order rounds = some (v.reverse.map fun h =>
          ((c.getBlock h).elim [] Block.data).map SignedTransaction.hash) := by
        rw [Api.longestChainTx, hv, Option.bind_eq_bind, Option.bind_some]
        refine mapM_eq_some fun h hh => ?_
        obtain ⟨b, hb⟩ := exists_getBlock_of_mem hv (List.mem_reverse.1 hh)
        rw [hb]
        rfl
      exact ⟨_, by rw [chainResponse, hmap]; rfl⟩
  | state block =>
      rw [chainResponse, hv, Option.bind_eq_bind, Option.bind_some]
      split
      · exact ⟨_, rfl⟩
      · rename_i hlt
        rw [List.getElem?_eq_getElem (by omega), Option.bind_eq_bind, Option.bind_some]
        split
        · exact ⟨_, rfl⟩
        · exact ⟨_, rfl⟩

end Api

/-! ### The responses of the threads -/

/-- The response that the thread of a request sends in a step. -/
def ApiStage.response (request : Except Api.Response Api.Call) (addrs : State → List Address)
    (stage : ApiStage) (e : Draw) (d : Shared) : Option Api.Response :=
  match stage with
  | .idle =>
    match request with
    | .error response => some response
    | .ok (.minerStart _) => if d.controlChanClosed then none else some (Api.respondResult true "ok")
    | .ok .networkPing => some (Api.respondResult true "ok")
    | .ok _ => none
  | .readingChain =>
    match request, e with
    | .ok call, .chain order rounds => call.chainResponse d.blockchain order rounds addrs
    | _, _ => none
  | .starting =>
    if d.startedTxGen then some (Api.respondResult true "already started tx generator!") else none
  | _ => none

omit [Crypto] in
theorem Stage.Generates.exists_api {a : Stage} (h : a.Generates) : ∃ stage, a = .api stage := by
  cases a with
  | api stage => exact ⟨stage, rfl⟩
  | _ => exact h.elim

/-- The generator does not respond. -/
theorem ApiStage.response_of_generates {stage : ApiStage} (h : (Stage.api stage).Generates)
    (request : Except Api.Response Api.Call) (addrs : State → List Address) (e : Draw) (d : Shared) :
    stage.response request addrs e d = none := by
  cases stage with
  | lockState | readingState | generating => rfl
  | _ => exact h.elim

namespace Threads

variable {numWorker : ℕ}

/-- The response that the `k`-th request gets in a step. -/
def response (urls : ℕ → Except String Api.Url) (addrs : ℕ → State → List Address) (k : ℕ)
    (x : Threads numWorker × (ThreadId numWorker × Draw)) : Option Api.Response :=
  if x.2.1 = .api k then
    match x.1.pc (.api k) with
    | .api stage => stage.response (Api.route (urls k)) (addrs k) x.2.2 x.1.shared
    | _ => none
  else none

/-- The signal that a request sends to the miner when it is carried out; there is none when the miner has
ended. -/
def startSignal (urls : ℕ → Except String Api.Url) (x : Threads numWorker × (ThreadId numWorker × Draw)) :
    Option ControlSignal :=
  match x.2.1 with
  | .api k =>
    if x.1.pc (.api k) = .api .idle ∧ x.1.shared.controlChanClosed = false then
      match Api.route (urls k) with
      | .ok (.minerStart lambda) => some (.start lambda)
      | _ => none
    else none
  | _ => none

/-- What the `k`-th request is carried out for is its URL. -/
def Serves (urls : ℕ → Except String Api.Url) :
    Threads numWorker × (ThreadId numWorker × Draw) → Prop
  | (S, .api k, e) => S.pc (.api k) = .api .idle → e = .request (Api.request (urls k))
  | _ => True

instance (urls : ℕ → Except String Api.Url) :
    (x : Threads numWorker × (ThreadId numWorker × Draw)) → Decidable (Serves urls x)
  | (_, .api _, _) => inferInstanceAs (Decidable (_ → _))
  | (_, .networkWorker _, _) | (_, .miner, _) | (_, .minerWorker, _) => isTrue trivial

/-- The requests of the run are those of the URLs. -/
def Serving (urls : ℕ → Except String Api.Url)
    (tr : List (Threads numWorker × (ThreadId numWorker × Draw))) : Prop := ∀ x ∈ tr, Serves urls x

section Runs

variable {g : GenesisDraw} {S S' : Threads numWorker} {urls : ℕ → Except String Api.Url}
  {addrs : ℕ → State → List Address} {k : ℕ}
  {tr : List (Threads numWorker × (ThreadId numWorker × Draw))}

/-- The right response for the `k`-th request: the one that refuses it, or `ok`, if it asks for a signal when
that is sent, or what is made from the store at a moment of the run when the thread of the request has its
mutex. -/
inductive Answers (urls : ℕ → Except String Api.Url) (addrs : ℕ → State → List Address)
    (tr : List (Threads numWorker × (ThreadId numWorker × Draw))) (k : ℕ) : Api.Response → Prop
  | refused {r : Api.Response} {message : String} : (∀ call, ¬ Api.AsksFor (urls k) call) →
      Api.route (urls k) = .error r → r.body = .result false message → Answers urls addrs tr k r
  | started {lambda : UInt64} {x : Threads numWorker × (ThreadId numWorker × Draw)} :
      Api.AsksFor (urls k) (.minerStart lambda) → x ∈ tr → x.2.1 = .api k →
      startSignal urls x = some (.start lambda) → Answers urls addrs tr k (Api.respondResult true "ok")
  | pinged : Api.AsksFor (urls k) .networkPing →
      Answers urls addrs tr k (Api.respondResult true "ok")
  | read {call : Api.Call} {x : Threads numWorker × (ThreadId numWorker × Draw)} {order : List H256}
      {rounds : ℕ} {r : Api.Response} : Api.AsksFor (urls k) call → x ∈ tr →
      x.1.owner .blockchain = some (.api k) →
      Blockchain.IterOrder x.1.shared.blockchain.blocks order →
      call.chainResponse x.1.shared.blockchain order rounds (addrs k) = some r →
      Answers urls addrs tr k r

/-- The thread of the `k`-th request began when the miner had ended. -/
def Late (tr : List (Threads numWorker × (ThreadId numWorker × Draw))) (k : ℕ) : Prop :=
  ∃ x ∈ tr, x.2.1 = .api k ∧ x.1.pc (.api k) = .api .idle ∧ x.1.pc .miner = .dead

omit [Crypto] in
theorem Late.mono {tr' : List (Threads numWorker × (ThreadId numWorker × Draw))} (h : Late tr k) :
    Late (tr ++ tr') k := by
  obtain ⟨x, hx, hlate⟩ := h
  exact ⟨x, List.mem_append_left _ hx, hlate⟩

/-- Where the thread of the `k`-th request is, with the responses that it has sent. -/
inductive Progress (urls : ℕ → Except String Api.Url) (addrs : ℕ → State → List Address)
    (tr : List (Threads numWorker × (ThreadId numWorker × Draw))) (k : ℕ) :
    Stage → List Api.Response → Prop
  | idle : Progress urls addrs tr k (.api .idle) []
  | reads {call : Api.Call} {stage : ApiStage} : Api.route (urls k) = .ok call → call.Reads →
      stage = .lockBlockchain ∨ stage = .readingChain → Progress urls addrs tr k (.api stage) []
  | starts {theta : UInt64} {stage : ApiStage} : Api.route (urls k) = .ok (.txGeneratorStart theta) →
      stage = .lockStarted ∨ stage = .starting ∨ (Stage.api stage).Generates →
      Progress urls addrs tr k (.api stage) []
  | died {call : Api.Call} : Api.route (urls k) = .ok call →
      call.Reads ∨ (∃ theta, call = .txGeneratorStart theta) → Progress urls addrs tr k .dead []
  | late {lambda : UInt64} : Api.route (urls k) = .ok (.minerStart lambda) → Late tr k →
      Progress urls addrs tr k .dead []
  | finished {r : Api.Response} : Answers urls addrs tr k r → Progress urls addrs tr k (.api .finished) [r]

theorem Answers.mono {tr' : List (Threads numWorker × (ThreadId numWorker × Draw))} {r : Api.Response}
    (h : Answers urls addrs tr k r) : Answers urls addrs (tr ++ tr') k r := by
  cases h with
  | refused hnot hroute hbody => exact .refused hnot hroute hbody
  | started h hx hk hsignal => exact .started h (List.mem_append_left _ hx) hk hsignal
  | pinged h => exact .pinged h
  | read h hx hown horder hr => exact .read h (List.mem_append_left _ hx) hown horder hr

theorem Progress.mono {tr' : List (Threads numWorker × (ThreadId numWorker × Draw))} {stage : Stage}
    {rs : List Api.Response} (h : Progress urls addrs tr k stage rs) :
    Progress urls addrs (tr ++ tr') k stage rs := by
  cases h with
  | idle => exact .idle
  | reads hcall hreads hstage => exact .reads hcall hreads hstage
  | starts hcall hstage => exact .starts hcall hstage
  | died hcall hcases => exact .died hcall hcases
  | late hcall h => exact .late hcall h.mono
  | finished h => exact .finished h.mono

theorem response_api {stage : ApiStage} (hpc : S.pc (.api k) = .api stage) (e : Draw) :
    response urls addrs k (S, (.api k, e)) =
      stage.response (Api.route (urls k)) (addrs k) e S.shared := by
  simp only [response, if_true, hpc]

/-- A request goes on when it is carried out, unless the miner has ended. -/
theorem idle_cases (request : Request) (d : Shared) :
    (∃ d' stage, threads.next (.api .idle) (.request request) d = .go d' stage) ∨
      threads.next (.api .idle) (.request request) d = .panic d ∧ d.controlChanClosed = true ∧
        ∃ lambda, request = .minerStart lambda := by
  cases request with
  | minerStart lambda =>
      cases hclosed : d.controlChanClosed with
      | true => exact Or.inr ⟨if_pos hclosed, rfl, lambda, rfl⟩
      | false => exact Or.inl ⟨_, _, if_neg (by simp [hclosed])⟩
  | _ => exact Or.inl ⟨_, _, rfl⟩

/-- The first step of a request. -/
theorem idle_next {e : Draw} {request : Request} (hidle : S.pc (.api k) = .api .idle)
    (he : e = .request request) (howned : S.Owned Stage.held)
    (hs : threads.step S (.api k, e) = some S') :
    threads.next (.api .idle) (.request request) S.shared = .go S'.shared (S'.pc (.api k)) ∨
      S.shared.controlChanClosed = true ∧ (∃ lambda, request = .minerStart lambda) ∧
        S'.pc (.api k) = .dead ∧ S'.shared = S.shared := by
  have hcases := idle_cases request S.shared
  cases stepCase_of_step howned hs with
  | acts henters hmoves hpoisoned =>
      rw [hidle, he] at hmoves
      rcases hmoves with hgo | ⟨m, hrelease⟩
      · exact Or.inl hgo
      · rw [hrelease] at hcases
        rcases hcases with ⟨d', stage, hgo⟩ | ⟨hpanic, -⟩
        · cases hgo
        · cases hpanic
  | dies hcause hshared hdead hpoisoned =>
      rw [hidle, he] at hcause
      rcases hcause with ⟨-, m, hwants, -⟩ | ⟨-, hpanic⟩
      · cases hwants
      · rw [hpanic] at hcases
        rcases hcases with ⟨d', stage, hgo⟩ | ⟨hsame, hclosed, hstart⟩
        · cases hgo
        · cases hsame
          rw [hidle] at hshared
          exact Or.inr ⟨hclosed, hstart, hdead, hshared⟩

omit [Crypto] in
theorem route_of_request {lambda : UInt64} (h : Api.request (urls k) = .minerStart lambda) :
    Api.route (urls k) = .ok (.minerStart lambda) := by
  unfold Api.request at h
  split at h
  · rename_i hroute
    cases h
    exact hroute
  all_goals cases h

omit [Crypto] in
/-- What the request to start the miner sends in its first step. -/
theorem startSignal_idle {e : Draw} {lambda : UInt64} (hidle : S.pc (.api k) = .api .idle)
    (hroute : Api.route (urls k) = .ok (.minerStart lambda)) :
    startSignal urls (S, (.api k, e)) =
      if S.shared.controlChanClosed = false then some (.start lambda) else none := by
  unfold startSignal
  simp only [hidle, hroute, true_and]

/-- A request is carried out, if it needs no mutex. -/
theorem Progress.step_idle {e : Draw} (hidle : S.pc (.api k) = .api .idle)
    (he : e = .request (Api.request (urls k))) (howned : S.Owned Stage.held)
    (hended : S.shared.controlChanClosed = true ↔ S.pc .miner = .dead)
    (hs : threads.step S (.api k, e) = some S') :
    Progress urls addrs (tr ++ [(S, (.api k, e))]) k (S'.pc (.api k))
      (response urls addrs k (S, (.api k, e))).toList := by
  have hmem : (S, (ThreadId.api k, e)) ∈ tr ++ [(S, (.api k, e))] :=
    List.mem_append_right _ (List.mem_singleton_self _)
  rw [response_api hidle]
  unfold ApiStage.response
  dsimp only
  rcases idle_next hidle he howned hs with hgo | ⟨hclosed, ⟨lambda, hrequest⟩, hdead, -⟩
  swap
  · -- the miner has ended
    have hroute := route_of_request hrequest
    rw [hdead, hroute]
    dsimp only
    rw [if_pos hclosed]
    exact .late hroute ⟨_, hmem, rfl, hidle, hended.1 hclosed⟩
  rw [Api.request] at hgo
  generalize S'.shared = d' at hgo
  generalize S'.pc (.api k) = stage at hgo ⊢
  cases hroute : Api.route (urls k) with
  | error r =>
      rw [hroute] at hgo
      cases hgo
      obtain ⟨message, hbody⟩ := Api.body_of_route_error hroute
      exact .finished (.refused (Api.not_asksFor_of_error hroute) hroute hbody)
  | ok call =>
      rw [hroute] at hgo
      cases call with
      | minerStart lambda =>
          have hsent := startSignal_idle (e := e) hidle hroute
          change (if _ then Act.panic _ else Act.go _ _) = _ at hgo
          dsimp only
          split at hgo
          · cases hgo
          · rename_i hopen
            cases hgo
            rw [if_pos (Bool.eq_false_iff.2 hopen)] at hsent
            rw [if_neg hopen]
            exact .finished (.started (Api.route_eq_ok_iff.1 hroute) hmem rfl hsent)
      | networkPing =>
          cases hgo
          exact .finished (.pinged (Api.route_eq_ok_iff.1 hroute))
      | txGeneratorStart theta =>
          cases hgo
          exact .starts hroute (Or.inl rfl)
      | longestChain | longestChainTx | state block =>
          cases hgo
          exact .reads hroute trivial (Or.inl rfl)

/-- The store is read when the walk has ended. -/
theorem readingChain_next {e : Draw} {d : Shared} {stage : Stage}
    (hnext : threads.next (.api .readingChain) e d ≠ .blocked)
    (hstage : stage = ((threads.next (.api .readingChain) e d).target).getD threads.dead) :
    ∃ order rounds, e = .chain order rounds ∧ Blockchain.IterOrder d.blockchain.blocks order ∧
      (d.blockchain.allBlocksInLongestChain order rounds).isSome ∧ stage = .api .finished := by
  unfold threads Stage.next ApiStage.next at hnext hstage
  dsimp only at hnext hstage
  cases e with
  | chain order rounds =>
      dsimp only at hnext hstage
      split at hnext
      · rename_i h
        rw [if_pos h] at hstage
        exact ⟨order, rounds, rfl, h.1, h.2, hstage⟩
      · exact absurd rfl hnext
  | _ => exact absurd rfl hnext

/-- **One step of a request.** -/
theorem Progress.step {e : Draw} {rs : List Api.Response}
    (h : Progress urls addrs tr k (S.pc (.api k)) rs) (howned : S.Owned Stage.held) (hclean : S.Clean)
    (hflagged : Flagged S) (hended : S.shared.controlChanClosed = true ↔ S.pc .miner = .dead)
    (hserving : S.pc (.api k) = .api .idle → e = .request (Api.request (urls k)))
    (hs : threads.step S (.api k, e) = some S') :
    Progress urls addrs (tr ++ [(S, (.api k, e))]) k (S'.pc (.api k))
      (rs ++ (response urls addrs k (S, (.api k, e))).toList) := by
  generalize hpc : S.pc (.api k) = stage at h
  rcases step_pc hs with ⟨⟨m, hwants, -⟩, hdead⟩ | ⟨-, hnext, hpc'⟩
  · -- the mutex that it takes is poisoned
    dsimp only at hwants hdead
    rw [hdead]
    rw [hpc] at hwants
    cases h with
    | idle => cases hwants
    | reads hcall hreads hstage =>
        rw [response_api hpc]
        rcases hstage with rfl | rfl
        · exact .died hcall (Or.inl hreads)
        · cases hwants
    | starts hcall hstage =>
        rw [response_api hpc]
        rcases hstage with rfl | rfl | hgenerates
        · exact .died hcall (Or.inr ⟨_, rfl⟩)
        · cases hwants
        · rename_i stage
          cases stage with
          | lockState => exact .died hcall (Or.inr ⟨_, rfl⟩)
          | readingState | generating => cases hwants
          | _ => exact hgenerates.elim
    | died | late | finished => cases hwants
  · dsimp only at hnext hpc'
    cases h with
    | idle => exact Progress.step_idle hpc (hserving hpc) howned hended hs
    | reads hcall hreads hstage =>
        rw [response_api hpc]
        rw [hpc] at hnext hpc'
        rcases hstage with rfl | rfl
        · rw [show S'.pc (.api k) = .api .readingChain from hpc']
          exact .reads hcall hreads (Or.inr rfl)
        · have hown : S.owner .blockchain = some (.api k) := by
            refine (howned _ _).2 ?_
            rw [hpc]
            simp [Stage.held, ApiStage.held]
          obtain ⟨order, rounds, rfl, horder, hwalk, hfinished⟩ := readingChain_next hnext hpc'
          obtain ⟨v, hv⟩ := Option.isSome_iff_exists.1 hwalk
          obtain ⟨r, hr⟩ := Api.Call.exists_chainResponse hreads hv (addrs k)
          have hresponse : ApiStage.response (Api.route (urls k)) (addrs k) .readingChain
              (.chain order rounds) S.shared = some r := by
            rw [hcall]
            exact hr
          rw [hresponse, hfinished]
          have hmem : (S, (ThreadId.api k, Draw.chain order rounds)) ∈
              tr ++ [(S, (ThreadId.api k, Draw.chain order rounds))] :=
            List.mem_append_right _ (List.mem_singleton_self _)
          exact .finished (.read (Api.route_eq_ok_iff.1 hcall) hmem hown horder hr)
    | starts hcall hstage =>
        rw [response_api hpc]
        rcases hstage with rfl | rfl | hgenerates
        · rw [hpc] at hpc'
          rw [show S'.pc (.api k) = .api .starting from hpc']
          exact .starts hcall (Or.inr (Or.inl rfl))
        · -- the flag is not set
          have hunset := hflagged.unset_of_starting howned hclean hpc
          have hnone : ApiStage.response (Api.route (urls k)) (addrs k) .starting e S.shared = none := by
            unfold ApiStage.response
            dsimp only
            rw [hunset, if_neg Bool.false_ne_true]
          rw [hpc] at hpc'
          unfold threads Stage.next ApiStage.next at hpc'
          dsimp only at hpc'
          rw [hunset, if_neg Bool.false_ne_true] at hpc'
          rw [hnone, show S'.pc (.api k) = .api .lockState from hpc']
          exact .starts hcall (Or.inr (Or.inr trivial))
        · -- in the loop of the generator
          rw [ApiStage.response_of_generates hgenerates]
          have hcase := Stage.controlCase (S.pc (.api k)) e S.shared
          rw [hpc] at hcase hnext hpc'
          generalize threads.next (.api _) e S.shared = act at hcase hnext hpc'
          cases hcase with
          | blocked => exact absurd rfl hnext
          | go _ hiff | release _ hiff =>
              obtain ⟨stage', rfl⟩ := (hiff.2 hgenerates).exists_api
              rw [show S'.pc (.api k) = .api stage' from hpc']
              exact .starts hcall (Or.inr (Or.inr (hiff.2 hgenerates)))
          | panic =>
              rw [show S'.pc (.api k) = .dead from hpc']
              exact .died hcall (Or.inr ⟨_, rfl⟩)
          | sets hstage | asks hstage =>
              cases hstage
              exact hgenerates.elim
    | died | late | finished =>
        rw [hpc] at hnext
        exact absurd rfl hnext

/-- **The requests of a run.** -/
theorem progress_of_run (hrun : Run (init numWorker g) tr S) (hserving : Serving urls tr) (k : ℕ) :
    Progress urls addrs tr k (S.pc (.api k)) (tr.filterMap (response urls addrs k)) := by
  induction hrun with
  | nil => exact .idle
  | @snoc tr S S' x hrun hs ih =>
      have hprev := ih fun y hy => hserving y (List.mem_append_left _ hy)
      obtain ⟨howned, hclean, hflagged⟩ := flagged_of_run hrun
      rw [Lts.Run.filterMap_concat]
      obtain ⟨t, e⟩ := x
      by_cases ht : t = .api k
      · subst ht
        exact hprev.step howned hclean hflagged (controlChanClosed_iff hrun)
          (hserving (S, (.api k, e)) (List.mem_append_right _ (List.mem_singleton_self _))) hs
      · have hnone : response urls addrs k (S, (t, e)) = none := if_neg ht
        rw [hnone, Option.toList_none, List.append_nil, step_pc_of_ne hs (Ne.symm ht)]
        exact hprev.mono

/-- A request sends its signal when it is carried out. -/
theorem controlChan_idle {e : Draw} (hidle : S.pc (.api k) = .api .idle)
    (he : e = .request (Api.request (urls k))) (howned : S.Owned Stage.held)
    (hs : threads.step S (.api k, e) = some S') :
    S'.shared.controlChan =
      S.shared.controlChan ++ (startSignal urls (S, (.api k, e))).toList := by
  have hnone (hroute : ∀ lambda, Api.route (urls k) ≠ .ok (.minerStart lambda)) :
      startSignal urls (S, (.api k, e)) = none := by
    unfold startSignal
    dsimp only
    split
    · split
      · rename_i lambda heq
        exact absurd heq (hroute lambda)
      · rfl
    · rfl
  rcases idle_next hidle he howned hs with hgo | ⟨hclosed, ⟨lambda, hrequest⟩, -, hshared⟩
  swap
  · rw [hshared, startSignal_idle hidle (route_of_request hrequest), if_neg (by simp [hclosed])]
    exact (List.append_nil _).symm
  rw [Api.request] at hgo
  generalize S'.pc (.api k) = stage at hgo
  generalize S'.shared = d' at hgo ⊢
  cases hroute : Api.route (urls k) with
  | error r =>
      rw [hroute] at hgo
      cases hgo
      rw [hnone (by simp [hroute])]
      exact (List.append_nil _).symm
  | ok call =>
      rw [hroute] at hgo
      cases call with
      | minerStart lambda =>
          rw [startSignal_idle hidle hroute]
          change (if _ then Act.panic _ else Act.go _ _) = _ at hgo
          split at hgo
          · cases hgo
          · rename_i hopen
            cases hgo
            rw [if_pos (Bool.eq_false_iff.2 hopen)]
            rfl
      | _ =>
          cases hgo
          rw [hnone (by simp [hroute])]
          exact (List.append_nil _).symm

/-- **The signals of a run**: those that wait in the control channel are the last ones that the requests
have sent. -/
theorem controlChan_of_run (hrun : Run (init numWorker g) tr S) (hserving : Serving urls tr) :
    S.shared.controlChan <:+ tr.filterMap (startSignal urls) := by
  induction hrun with
  | nil => exact List.suffix_rfl
  | @snoc tr S S' x hrun hs ih =>
      have hprev := ih fun y hy => hserving y (List.mem_append_left _ hy)
      have hserving' := hserving (S, x) (List.mem_append_right _ (List.mem_singleton_self _))
      rw [Lts.Run.filterMap_concat]
      obtain ⟨howned, n, -, hsim⟩ := simulates_of_run (M := fun _ => True) hrun fun _ _ _ _ => trivial
      obtain ⟨t, e⟩ := x
      by_cases hidle : S.pc t = .api .idle
      · obtain ⟨k, rfl⟩ : ∃ k, t = .api k := by
          have hplaced := hsim.placed t
          rw [hidle] at hplaced
          cases t with
          | api k => exact ⟨k, rfl⟩
          | _ => exact hplaced.elim
        rw [controlChan_idle hidle (hserving' hidle) howned hs]
        obtain ⟨earlier, h⟩ := hprev
        exact ⟨earlier, by rw [← List.append_assoc, h]⟩
      · have hnone : startSignal urls (S, (t, e)) = none := by
          unfold startSignal
          dsimp only
          split
          · exact if_neg fun h => hidle h.1
          · rfl
        rw [hnone, Option.toList_none, List.append_nil]
        exact (controlChan_suffix howned hs hidle).trans hprev

/-- **Every request is answered once, or not at all.**  A request that cannot be understood is refused and
never waits for a mutex; one that is understood is answered once it is carried out, one that starts the miner
exactly when its signal is sent: it dies when the miner has ended.  Those are the only ones that send a
signal. -/
theorem requests_answered (hrun : Run (init numWorker g) tr S) (hserving : Serving urls tr) :
    (∀ k, (S.pc (.api k) = .api .idle ∧ tr.filterMap (response urls addrs k) = []) ∨
      (S.pc (.api k) = .api .finished ∧ ∃ r, tr.filterMap (response urls addrs k) = [r] ∧
        Answers urls addrs tr k r) ∨
      (S.pc (.api k) ≠ .api .finished ∧ tr.filterMap (response urls addrs k) = [] ∧
        ∃ call, Api.AsksFor (urls k) call ∧
          (call.Reads ∨ (∃ theta, call = .txGeneratorStart theta) ∨
            (∃ lambda, call = .minerStart lambda) ∧ S.pc (.api k) = .dead ∧ Late tr k))) ∧
      S.shared.controlChan <:+ tr.filterMap (startSignal urls) := by
  refine ⟨fun k => ?_, controlChan_of_run hrun hserving⟩
  have hprogress : Progress urls addrs tr k (S.pc (.api k)) (tr.filterMap (response urls addrs k)) :=
    progress_of_run hrun hserving k
  generalize S.pc (.api k) = stage at hprogress ⊢
  generalize tr.filterMap (response urls addrs k) = rs at hprogress ⊢
  cases hprogress with
  | idle => exact Or.inl ⟨rfl, rfl⟩
  | finished h => exact Or.inr (Or.inl ⟨rfl, _, rfl, h⟩)
  | reads hcall hreads hstage =>
      refine Or.inr (Or.inr ⟨?_, rfl, _, Api.route_eq_ok_iff.1 hcall, Or.inl hreads⟩)
      rcases hstage with rfl | rfl
      all_goals simp
  | starts hcall hstage =>
      refine Or.inr (Or.inr ⟨?_, rfl, _, Api.route_eq_ok_iff.1 hcall, Or.inr (Or.inl ⟨_, rfl⟩)⟩)
      rcases hstage with rfl | rfl | hgenerates
      · simp
      · simp
      · intro hfinished
        rw [hfinished] at hgenerates
        exact hgenerates
  | died hcall hcases =>
      exact Or.inr (Or.inr ⟨by simp, rfl, _, Api.route_eq_ok_iff.1 hcall, hcases.imp id Or.inl⟩)
  | late hcall hlate =>
      exact Or.inr (Or.inr ⟨by simp, rfl, _, Api.route_eq_ok_iff.1 hcall,
        Or.inr (Or.inr ⟨⟨_, rfl⟩, rfl, hlate⟩)⟩)

end Runs

/-- Two requests to start the miner, the second one with a number that is too large, and one for the longest
chain. -/
def startUrls (k : ℕ) : Except String Api.Url :=
  if k = 2 then .ok { path := "/blockchain/longest-chain", queryPairs := [] }
  else
    .ok
      { path := "/miner/start",
        queryPairs := [("lambda", if k = 0 then "7" else "18446744073709551616")] }

/-- They are served in another order. -/
def serveStart : List (ThreadId 1 × Draw) :=
  [(.api 2, .request .blockchain), (.api 1, .request .other), (.api 0, .request (.minerStart 7)),
    (.api 2, .tau), (.api 2, .chain [1] 2)]

omit [Crypto] in
/-- The miner hears of the first request, and every request has one response. -/
theorem requests_answered_start :
    letI := sampleCrypto
    ∃ (S : Threads 1) (tr : List (Threads 1 × (ThreadId 1 × Draw))),
      S.shared.controlChan <:+ tr.filterMap (startSignal startUrls) ∧
      ∀ k < 3, ∃ r, tr.filterMap (response startUrls (fun _ _ => []) k) = [r] := by
  let _ := sampleCrypto
  obtain ⟨S, hrun, hfinished⟩ := @Lts.exists_run_of_replay _ _ (@threads sampleCrypto).step serveStart
    (@init sampleCrypto 1 sampleGenesis)
    (fun S => ∀ k < 3, S.pc (.api k) = .api .finished) (by decide +kernel)
  have hserving : Serving startUrls (Lts.replayTrace threads.step (init 1 sampleGenesis) serveStart) := by
    unfold Serving
    decide +kernel
  obtain ⟨hanswers, hsignals⟩ := @requests_answered _ _ _ _ _ (fun _ _ => []) _ hrun hserving
  refine ⟨S, _, hsignals, fun k hk => ?_⟩
  rcases hanswers k with ⟨hidle, -⟩ | ⟨-, r, hr, -⟩ | ⟨hnot, -⟩
  · rw [hfinished k hk] at hidle
    cases hidle
  · exact ⟨r, hr⟩
  · exact absurd (hfinished k hk) hnot

end Threads

end BitcoinClient
