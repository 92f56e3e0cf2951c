/-
**One transaction generator.**

A request to start the transaction generator takes the mutex of the flag that says whether it was started,
sets the flag, and then runs the loop of the generator itself, with the mutex still in its hands.  The loop
does not end.  So there is one generator at most, as intended; but a later request does not come to see the
flag either, and the answer that the generator was started already is never given: the request waits for
ever, or panics when the generator has died and left the mutex poisoned.

Main definitions:

* `BitcoinClient.Stage.Generates` — a thread in the loop of the generator.

Main results:

* `BitcoinClient.Threads.one_generator` — **at most one request ever generates**, and no other one gets an
  answer.
-/

import BitcoinClient.Threads

set_option relaxedAutoImplicit false
set_option autoImplicit false

namespace BitcoinClient

variable [Crypto]

open Locks

/-! ### The flag -/

/-- The thread is in the loop of the transaction generator. -/
def Stage.Generates : Stage → Prop
  | .api .lockState | .api .readingState | .api (.generating _) => True
  | _ => False

/-- The flag stays, and there is nothing new in the control channel of the miner. -/
structure Shared.Leaves (d d' : Shared) : Prop where
  flag : d'.startedTxGen = d.startedTxGen
  chan : d'.controlChan <:+ d.controlChan

/-- What the act of a thread at the stage `a` does to the flag, the loop of the generator and the control
channel: nothing new comes in, unless the thread sets the flag, or carries out a request to start the
miner. -/
inductive ControlCase (a : Stage) (e : Draw) (d : Shared) : Acts → Prop
  | blocked : ControlCase a e d .blocked
  | go {d' : Shared} {b : Stage} : d.Leaves d' → (b.Generates ↔ a.Generates) →
      ControlCase a e d (.go d' b)
  | release {m : Mutex} {d' : Shared} {b : Stage} : d.Leaves d' → (b.Generates ↔ a.Generates) →
      ControlCase a e d (.release m d' b)
  | panic {d' : Shared} : d.Leaves d' → ControlCase a e d (.panic d')
  | sets : a = .api .starting → d.startedTxGen = false →
      ControlCase a e d (.go { d with startedTxGen := true } (.api .lockState))
  | asks {lambda : UInt64} : a = .api .idle → e = .request (.minerStart lambda) →
      ControlCase a e d (.go { d with controlChan := d.controlChan ++ [.start lambda] } (.api .finished))

section Flag

variable {e : Draw} {d : Shared}

omit [Crypto] in
theorem ControlCase.afterwards {α : Type} {a : Stage} {act : Shared → Acts} (x : Exec Worker α)
    (h : ∀ w, ControlCase a e d (act { d with toWorker := w })) : ControlCase a e d (d.afterwards x act) := by
  cases x with
  | done w y => exact h w
  | panicked w => exact .panic ⟨rfl, List.suffix_rfl⟩
  | looping w => exact .blocked

theorem WorkerStage.controlCase (stage : WorkerStage) (e : Draw) (d : Shared) :
    ControlCase (.networkWorker stage) e d (stage.next e d) := by
  cases stage with
  | receive =>
      cases e with
      | message m => cases m <;> exact .go ⟨rfl, List.suffix_rfl⟩ Iff.rfl
      | malformed => exact .panic ⟨rfl, List.suffix_rfl⟩
      | _ => exact .blocked
  | lockFor m =>
      cases m with
      | ping | pong => exact .blocked
      | _ => exact .go ⟨rfl, List.suffix_rfl⟩ Iff.rfl
  | holding m =>
      cases m with
      | ping | pong | blocks => exact .blocked
      | _ => exact .release ⟨rfl, List.suffix_rfl⟩ Iff.rfl
  | blocks rest newHashes =>
      cases rest with
      | nil => exact .release ⟨rfl, List.suffix_rfl⟩ Iff.rfl
      | cons block rest =>
          rw [next]
          split <;> exact .go ⟨rfl, List.suffix_rfl⟩ Iff.rfl
  | lockMempool => exact .go ⟨rfl, List.suffix_rfl⟩ Iff.rfl
  | removing => exact .release ⟨rfl, List.suffix_rfl⟩ Iff.rfl
  | parentOf block rest newHashes =>
      rw [next]
      split
      · exact .go ⟨rfl, List.suffix_rfl⟩ Iff.rfl
      · split
        · exact .afterwards _ fun _ => .go ⟨rfl, List.suffix_rfl⟩ Iff.rfl
        · exact .go ⟨rfl, List.suffix_rfl⟩ Iff.rfl
  | lockOrphans block parentBlock => cases parentBlock <;> exact .go ⟨rfl, List.suffix_rfl⟩ Iff.rfl
  | parking =>
      rw [next]
      exact .afterwards _ fun _ => .release ⟨rfl, List.suffix_rfl⟩ Iff.rfl
  | attaching =>
      rw [next]
      exact .afterwards _ fun _ => .go ⟨rfl, List.suffix_rfl⟩ Iff.rfl
  | searching block newBlockInserted idxToDelete rest newHashes =>
      rw [next]
      split
      · exact .afterwards _ fun _ => .release ⟨rfl, List.suffix_rfl⟩ Iff.rfl
      · exact .afterwards _ fun _ => .go ⟨rfl, List.suffix_rfl⟩ Iff.rfl

theorem MinerStage.controlCase (stage : MinerStage) (e : Draw) (d : Shared) :
    ControlCase (.miner stage) e d (stage.next e d) := by
  unfold next
  cases stage with
  | lockTip | lockBlockchain => exact .go ⟨rfl, List.suffix_rfl⟩ Iff.rfl
  | readTip =>
      dsimp only
      split
      · split
        · split
          · exact .panic ⟨rfl, List.suffix_rfl⟩
          · exact .release ⟨rfl, List.suffix_rfl⟩ Iff.rfl
        · exact .blocked
      · exact .blocked
  | control operatingState =>
      cases operatingState with
      | shutDown => exact .go ⟨rfl, List.suffix_rfl⟩ Iff.rfl
      | paused | run =>
          dsimp only
          split
          · first | exact .go ⟨rfl, List.suffix_rfl⟩ Iff.rfl | exact .blocked
          -- a signal is taken
          all_goals
            rename_i hchan
            exact .go ⟨rfl, hchan ▸ List.suffix_cons _ _⟩ Iff.rfl
  | mining =>
      dsimp only
      split
      · split
        · exact .panic ⟨rfl, List.suffix_rfl⟩
        · split <;> exact .go ⟨rfl, List.suffix_rfl⟩ Iff.rfl
      · exact .blocked
  | lockMempool =>
      dsimp only
      split
      · split
        · exact .go ⟨rfl, List.suffix_rfl⟩ Iff.rfl
        · exact .blocked
      · exact .blocked
  | executing =>
      dsimp only
      split
      · exact .panic ⟨rfl, List.suffix_rfl⟩
      · split
        · exact .panic ⟨rfl, List.suffix_rfl⟩
        · exact .release ⟨rfl, List.suffix_rfl⟩ Iff.rfl
  | finishing =>
      dsimp only
      split
      · exact .panic ⟨rfl, List.suffix_rfl⟩
      · exact .release ⟨rfl, List.suffix_rfl⟩ Iff.rfl
  | stopped => exact .go ⟨rfl, List.suffix_rfl⟩ Iff.rfl

theorem MinerWorkerStage.controlCase (stage : MinerWorkerStage) (e : Draw) (d : Shared) :
    ControlCase (.minerWorker stage) e d (stage.next d) := by
  unfold next
  cases stage with
  | receive =>
      dsimp only
      split
      · split
        · exact .panic ⟨rfl, List.suffix_rfl⟩
        · exact .blocked
      · exact .go ⟨rfl, List.suffix_rfl⟩ Iff.rfl
  | inserting =>
      dsimp only
      split
      · exact .panic ⟨rfl, List.suffix_rfl⟩
      · exact .release ⟨rfl, List.suffix_rfl⟩ Iff.rfl
  | lockBlockchain | broadcasting => exact .go ⟨rfl, List.suffix_rfl⟩ Iff.rfl

theorem ApiStage.controlCase (stage : ApiStage) (e : Draw) (d : Shared) :
    ControlCase (.api stage) e d (stage.next e d) := by
  cases stage with
  | idle =>
      cases e with
      | request request =>
          cases request with
          | minerStart lambda =>
              unfold next
              dsimp only
              split
              · exact .panic ⟨rfl, List.suffix_rfl⟩
              · exact .asks rfl rfl
          | _ => exact .go ⟨rfl, List.suffix_rfl⟩ Iff.rfl
      | _ => exact .blocked
  | lockBlockchain | lockStarted | lockState => exact .go ⟨rfl, List.suffix_rfl⟩ Iff.rfl
  | readingChain =>
      unfold next
      dsimp only
      split
      · split
        · exact .release ⟨rfl, List.suffix_rfl⟩ Iff.rfl
        · exact .blocked
      · exact .blocked
  | starting =>
      unfold next
      dsimp only
      split
      · exact .release ⟨rfl, List.suffix_rfl⟩ Iff.rfl
      · rename_i hnot
        exact .sets rfl (by simpa using hnot)
  | readingState =>
      unfold next
      dsimp only
      split
      · split
        · split
          · exact .panic ⟨rfl, List.suffix_rfl⟩
          · exact .release ⟨rfl, List.suffix_rfl⟩ Iff.rfl
        · exact .blocked
      · exact .blocked
  | generating =>
      unfold next
      dsimp only
      split
      · split
        · exact .panic ⟨rfl, List.suffix_rfl⟩
        · split
          · exact .go ⟨rfl, List.suffix_rfl⟩ Iff.rfl
          · exact .blocked
      · exact .blocked
  | finished => exact .blocked

theorem Stage.controlCase (stage : Stage) (e : Draw) (d : Shared) :
    ControlCase stage e d (threads.next stage e d) := by
  cases stage with
  | networkWorker stage => exact stage.controlCase e d
  | miner stage => exact stage.controlCase e d
  | minerWorker stage => exact stage.controlCase e d
  | api stage => exact stage.controlCase e d
  | dead => exact .blocked

omit [Crypto] in
theorem Stage.leaves_drops (stage : Stage) (d : Shared) : d.Leaves (stage.drops d) := by
  cases stage <;> exact ⟨rfl, List.suffix_rfl⟩

omit [Crypto] in
theorem Stage.Generates.mem_held {stage : Stage} (h : stage.Generates) :
    .startedTxGen ∈ stage.held := by
  unfold Generates at h
  split at h
  · simp [held, ApiStage.held]
  · simp [held, ApiStage.held]
  · simp [held, ApiStage.held]
  · exact h.elim

end Flag

/-! ### Runs -/

namespace Threads

variable {numWorker : ℕ} {g : GenesisDraw} {S S' : Threads numWorker}
  {tr tr' : List (Threads numWorker × (ThreadId numWorker × Draw))}
  {x : ThreadId numWorker × Draw} {t u : ThreadId numWorker}

/-- The flag, compared with the threads: it is set when a thread generates, and as long as it is set a
thread generates, or has died of it. -/
structure Flagged (S : Threads numWorker) : Prop where
  set : ∀ t, (S.pc t).Generates → S.shared.startedTxGen = true
  kept : S.shared.startedTxGen = true →
    S.poisoned .startedTxGen = true ∨ ∃ t, (S.pc t).Generates

/-- What a step does to the flag and to the loop of the generator. -/
inductive FlagStep (S : Threads numWorker) (t : ThreadId numWorker) (S' : Threads numWorker) : Prop
  | keeps : S'.shared.startedTxGen = S.shared.startedTxGen →
      ((S'.pc t).Generates ↔ (S.pc t).Generates) → S'.poisoned = S.poisoned → FlagStep S t S'
  | sets : S'.shared.startedTxGen = true → (S'.pc t).Generates → S'.poisoned = S.poisoned →
      FlagStep S t S'
  | dies : S'.shared.startedTxGen = S.shared.startedTxGen → S'.pc t = .dead →
      (S.poisoned .startedTxGen = true ∨ (S.pc t).Generates → S'.poisoned .startedTxGen = true) →
      FlagStep S t S'

theorem flagStep_of_step (howned : S.Owned Stage.held) (hs : threads.step S x = some S') :
    FlagStep S x.1 S' := by
  obtain ⟨t, e⟩ := x
  have hcase := Stage.controlCase (S.pc t) e S.shared
  cases stepCase_of_step howned hs with
  | acts henters hmoves hpoisoned =>
      rcases hmoves with hgo | ⟨m, hrelease⟩
      · rw [hgo] at hcase
        generalize hb : S'.pc t = b at hcase
        generalize hd : S'.shared = d' at hcase
        cases hcase with
        | go hleaves hiff =>
            refine .keeps ?_ ?_ hpoisoned
            · rw [hd, hleaves.flag]
            · rw [hb, hiff]
        | sets =>
            refine .sets ?_ ?_ hpoisoned
            · rw [hd]
            · rw [hb]
              trivial
        | asks hidle =>
            refine .keeps ?_ ?_ hpoisoned
            · rw [hd]
            · rw [hb, hidle]
              exact Iff.rfl
      · rw [hrelease] at hcase
        cases hcase with
        | release hleaves hiff => exact .keeps hleaves.flag hiff hpoisoned
  | dies hcause hshared hdead hpoisoned =>
      refine .dies ?_ hdead fun hcases => ?_
      · rw [hshared]
        refine (Stage.leaves_drops _ _).flag.trans ?_
        rcases hcause with ⟨rfl, -⟩ | ⟨-, hpanic⟩
        · rfl
        · rw [hpanic] at hcase
          cases hcase with
          | panic hleaves => exact hleaves.flag
      · by_contra hclean
        obtain ⟨hnot, hclean'⟩ := (hpoisoned .startedTxGen).1 (by simpa using hclean)
        rcases hcases with hold | hgenerates
        · rw [hclean'] at hold
          cases hold
        · exact hnot (Finset.mem_union_left _ hgenerates.mem_held)

/-- Nothing new comes into the control channel, unless a request is carried out. -/
theorem controlChan_suffix (howned : S.Owned Stage.held) (hs : threads.step S x = some S')
    (hne : S.pc x.1 ≠ .api .idle) : S'.shared.controlChan <:+ S.shared.controlChan := by
  obtain ⟨t, e⟩ := x
  have hcase := Stage.controlCase (S.pc t) e S.shared
  cases stepCase_of_step howned hs with
  | acts henters hmoves hpoisoned =>
      generalize S'.pc t = b at hmoves
      generalize S'.shared = d' at hmoves ⊢
      rcases hmoves with hgo | ⟨m, hrelease⟩
      · rw [hgo] at hcase
        cases hcase with
        | go hleaves => exact hleaves.chan
        | sets => exact List.suffix_rfl
        | asks hidle => exact absurd hidle hne
      · rw [hrelease] at hcase
        cases hcase with
        | release hleaves => exact hleaves.chan
  | dies hcause hshared hdead hpoisoned =>
      rw [hshared]
      refine (Stage.leaves_drops _ _).chan.trans ?_
      rcases hcause with ⟨rfl, -⟩ | ⟨-, hpanic⟩
      · exact List.suffix_rfl
      · rw [hpanic] at hcase
        cases hcase with
        | panic hleaves => exact hleaves.chan

theorem Flagged.step (h : Flagged S) (howned : S.Owned Stage.held)
    (hs : threads.step S x = some S') : Flagged S' := by
  have hpc : ∀ u, u ≠ x.1 → S'.pc u = S.pc u := fun u hu => step_pc_of_ne hs hu
  cases flagStep_of_step howned hs with
  | keeps hflag hiff hpoisoned =>
      have hall : ∀ u, (S'.pc u).Generates ↔ (S.pc u).Generates := by
        intro u
        by_cases hu : u = x.1
        · rw [hu, hiff]
        · rw [hpc u hu]
      constructor
      · intro u hu
        rw [hflag]
        exact h.set u ((hall u).1 hu)
      · rw [hflag, hpoisoned]
        exact fun hset => (h.kept hset).imp id fun ⟨u, hu⟩ => ⟨u, (hall u).2 hu⟩
  | sets hset hgenerates _ => exact ⟨fun _ _ => hset, fun _ => Or.inr ⟨_, hgenerates⟩⟩
  | dies hflag hdead hpoisoned =>
      constructor
      · intro u hu
        have hne : u ≠ x.1 := by
          rintro rfl
          rw [hdead] at hu
          exact hu
        rw [hpc u hne] at hu
        rw [hflag]
        exact h.set u hu
      · rw [hflag]
        intro hset
        rcases h.kept hset with hold | ⟨u, hu⟩
        · exact Or.inl (hpoisoned (Or.inl hold))
        · by_cases hne : u = x.1
          · rw [hne] at hu
            exact Or.inl (hpoisoned (Or.inr hu))
          · refine Or.inr ⟨u, ?_⟩
            rw [hpc u hne]
            exact hu

/-- A thread in the loop of the generator stays there, or dies and poisons the mutex of the flag. -/
theorem generates_step (h : S.poisoned .startedTxGen = true ∨ (S.pc t).Generates)
    (howned : S.Owned Stage.held) (hs : threads.step S x = some S') :
    S'.poisoned .startedTxGen = true ∨ (S'.pc t).Generates := by
  have hpc : t ≠ x.1 → S'.pc t = S.pc t := fun ht => step_pc_of_ne hs ht
  cases flagStep_of_step howned hs with
  | keeps hflag hiff hpoisoned =>
      rw [hpoisoned]
      refine h.imp id fun hgenerates => ?_
      by_cases ht : t = x.1
      · rw [ht] at hgenerates ⊢
        exact hiff.2 hgenerates
      · rwa [hpc ht]
  | sets hset hgenerates hpoisoned =>
      rw [hpoisoned]
      refine h.imp id fun hgenerates' => ?_
      by_cases ht : t = x.1
      · rwa [ht]
      · rwa [hpc ht]
  | dies hflag hdead hpoisoned =>
      rcases h with hold | hgenerates
      · exact Or.inl (hpoisoned (Or.inl hold))
      · by_cases ht : t = x.1
        · rw [ht] at hgenerates
          exact Or.inl (hpoisoned (Or.inr hgenerates))
        · refine Or.inr ?_
          rwa [hpc ht]

/-- The mutexes and the flag in a run. -/
theorem flagged_of_run (hrun : Run (init numWorker g) tr S) :
    S.Owned Stage.held ∧ S.Clean ∧ Flagged S := by
  refine ⟨owned_of_run hrun, clean_of_run hrun, ?_⟩
  induction hrun with
  | nil =>
      constructor
      · intro t ht
        cases t <;> exact ht.elim
      · exact fun hset => absurd hset Bool.false_ne_true
  | snoc hrun hs ih => exact ih.step (owned_of_run hrun) hs

/-- Two threads that generate, now and later, are the same. -/
theorem generates_unique (howned : S.Owned Stage.held) (hclean : S.Clean)
    (ht : (S.pc t).Generates) (hrun : Run S tr S') (hu : (S'.pc u).Generates) : t = u := by
  have hlater := hrun.invariant
    (I := fun S => S.Owned Stage.held ∧ S.Clean ∧
      (S.poisoned .startedTxGen = true ∨ (S.pc t).Generates))
    (C := fun _ _ => True) ⟨howned, hclean, Or.inr ht⟩ ?_ fun _ _ => trivial
  · obtain ⟨howned', hclean', hcases⟩ := hlater
    have hown := (howned' u .startedTxGen).2 hu.mem_held
    rcases hcases with hpoisoned | ht'
    · rw [hclean' u _ hown] at hpoisoned
      cases hpoisoned
    · rw [(howned' t .startedTxGen).2 ht'.mem_held, Option.some_inj] at hown
      exact hown
  · rintro S x S' ⟨howned, hclean, hcases⟩ - hs
    exact ⟨owned_step threads_annotates howned hs, clean_step threads_annotates howned hclean hs,
      generates_step hcases howned hs⟩

omit [Crypto] in
/-- A thread that has the mutex of the flag generates itself, as soon as the flag is set. -/
theorem Flagged.generates_of_owner (h : Flagged S) (howned : S.Owned Stage.held) (hclean : S.Clean)
    (hown : S.owner .startedTxGen = some t) (hset : S.shared.startedTxGen = true) :
    (S.pc t).Generates := by
  rcases h.kept hset with hpoisoned | ⟨u, hu⟩
  · rw [hclean t _ hown] at hpoisoned
    cases hpoisoned
  · rw [(howned u .startedTxGen).2 hu.mem_held, Option.some_inj] at hown
    rwa [← hown]

omit [Crypto] in
/-- Where a request looks at the flag, it is not set. -/
theorem Flagged.unset_of_starting (h : Flagged S) (howned : S.Owned Stage.held) (hclean : S.Clean)
    (ht : S.pc t = .api .starting) : S.shared.startedTxGen = false := by
  rw [← Bool.not_eq_true]
  intro hset
  have hown : S.owner .startedTxGen = some t := by
    refine (howned t .startedTxGen).2 ?_
    rw [ht]
    simp [Stage.held, ApiStage.held]
  have hgenerates := h.generates_of_owner howned hclean hown hset
  rw [ht] at hgenerates
  exact hgenerates

/-- **At most one request ever generates**, in the whole of a run.  The others get no answer: where the
answer is chosen the flag is not set, and a request that comes when it is set does not get there. -/
theorem one_generator (hrun : Run (init numWorker g) tr S) :
    (∀ tr' S', Run S tr' S' → ∀ t u, (S.pc t).Generates → (S'.pc u).Generates → t = u) ∧
      (∀ t, S.pc t = .api .starting → S.shared.startedTxGen = false) ∧
      (S.shared.startedTxGen = true → ∀ t e S', S.pc t = .api .lockStarted →
        threads.step S (t, e) = some S' → S'.pc t = .dead) := by
  obtain ⟨howned, hclean, hflagged⟩ := flagged_of_run hrun
  refine ⟨fun tr' S' hrun' t u ht hu => generates_unique howned hclean ht hrun' hu,
    fun t ht => hflagged.unset_of_starting howned hclean ht, fun hset t e S' ht hs => ?_⟩
  cases stepCase_of_step howned hs with
  | acts henters hmoves hpoisoned =>
      have hwants : threads.wants (S.pc t) = some .startedTxGen := by
        rw [ht]
        rfl
      obtain ⟨hfree, hclean'⟩ := henters _ hwants
      rcases hflagged.kept hset with hpoisoned | ⟨u, hu⟩
      · rw [hclean'] at hpoisoned
        cases hpoisoned
      · rw [(howned u .startedTxGen).2 hu.mem_held] at hfree
        cases hfree
  | dies hcause hshared hdead hpoisoned => exact hdead

/-- A request starts the generator, and another one comes. -/
def twoRequests : List (ThreadId 1 × Draw) :=
  [(.api 0, .request .txGeneratorStart), (.api 0, .tau), (.api 0, .tau),
    (.api 1, .request .txGeneratorStart)]

omit [Crypto] in
/-- The second request does not get the mutex. -/
theorem one_generator_two :
    letI := sampleCrypto
    ∃ S : Threads 1, (S.pc (.api 0)).Generates ∧ S.pc (.api 1) = .api .lockStarted ∧
      ∀ e S', threads.step S (.api 1, e) = some S' → S'.pc (.api 1) = .dead := by
  let _ := sampleCrypto
  obtain ⟨S, hrun, hset, hfirst, hsecond⟩ := @Lts.exists_run_of_replay _ _
    (@threads sampleCrypto).step twoRequests (@init sampleCrypto 1 sampleGenesis)
    (fun S => S.shared.startedTxGen = true ∧ S.pc (.api 0) = .api .lockState ∧
      S.pc (.api 1) = .api .lockStarted) (by decide +kernel)
  refine ⟨S, ?_, hsecond, fun e S' hs => (one_generator hrun).2.2 hset _ e S' hsecond hs⟩
  rw [hfirst]
  trivial

end Threads

end BitcoinClient
