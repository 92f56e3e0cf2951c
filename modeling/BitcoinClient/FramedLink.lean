/-
**A link that carries frames over a stream.**

Payloads wait in a queue.  A writer takes them off the queue and writes the frame of each to a
stream; what has been written arrives on the other side in pieces of any size, and a reader takes
frames off what has arrived.  A write may fail after some symbols of the frame, and then the writer
ends; the stream may be cut, and then nothing arrives any more.

Whatever happens, in any order, the reader delivers a prefix of the payloads that the queue has
accepted: none is lost in between, repeated, reordered or damaged.  If nothing fails and nothing is
under way any more, it has delivered all of them.

Main definitions:

* `FramedLink.Link`, `FramedLink.Event`, `FramedLink.Link.step`;
* `FramedLink.accepted`, `FramedLink.delivered` — what a run has put into the queue and taken off the
  stream;
* `FramedLink.Carries` — the invariant of a link.

Main results:

* `LengthPrefix.Header.next_of_prefix` — a frame taken off a cut stream of frames is the first one;
* `FramedLink.Carries.step` — the step lemma;
* `FramedLink.Carries.inOrder`, `FramedLink.Carries.complete` — **delivery in order, at most once**, and
  complete delivery.
-/

import BitcoinClient.LengthPrefix
import BitcoinClient.Lts

set_option relaxedAutoImplicit false
set_option autoImplicit false

universe u

namespace LengthPrefix.Header

variable {α : Type u} {H : Header α}

/-- A frame that is taken off a part of a stream of frames is the first one, whole. -/
theorem next_of_prefix {ps : List (List α)} (hps : ∀ p ∈ ps, p.length < H.bound) {bs p rest : List α}
    (hbs : bs <+: H.frames ps) (hnext : H.next bs = some (p, rest)) :
    ∃ ps', ps = p :: ps' ∧ bs = H.frame p ++ rest := by
  rw [List.prefix_iff_eq_take] at hbs
  cases ps with
  | nil =>
      rw [frames_nil, List.take_nil] at hbs
      have hparse := parse_of_some hnext
      rw [hbs, parse_nil] at hparse
      cases hparse
  | cons q qs =>
      have hq := hps q (List.mem_cons_self ..)
      rw [frames_cons] at hbs
      rcases Nat.lt_or_ge bs.length (H.frame q).length with hlt | hge
      · -- the cut is in the first frame
        rw [List.take_append_of_le_length (Nat.le_of_lt hlt)] at hbs
        rw [hbs, next_take_frame hq hlt] at hnext
        cases hnext
      · rw [List.take_append, List.take_of_length_le hge] at hbs
        rw [hbs, next_frame hq, Option.some_inj, Prod.mk.injEq] at hnext
        obtain ⟨rfl, rfl⟩ := hnext
        exact ⟨qs, rfl, hbs⟩

theorem frames_append (ps qs : List (List α)) : H.frames (ps ++ qs) = H.frames ps ++ H.frames qs :=
  List.flatMap_append

theorem frames_singleton (p : List α) : H.frames [p] = H.frame p := by
  rw [frames_cons, frames_nil, List.append_nil]

theorem frames_eq_nil {ps : List (List α)} (h : H.frames ps = []) : ps = [] := by
  cases ps with
  | nil => rfl
  | cons p ps =>
      have hpos := H.size_pos
      have hlen := congrArg List.length h
      rw [frames_cons, frame, List.length_append, List.length_append, H.length_encode,
        List.length_nil] at hlen
      omega

end LengthPrefix.Header

namespace FramedLink

open LengthPrefix

variable {α : Type u}

/-! ### The link -/

/-- `stream` is what has arrived and was not read yet; `wire` is what was written and has not
arrived. -/
structure Link (α : Type u) where
  queue : List (List α)
  writing : Bool
  wire : List α
  cut : Bool
  stream : List α

/-- A new link. -/
def Link.new : Link α := { queue := [], writing := true, wire := [], cut := false, stream := [] }

inductive Event (α : Type u)
  /-- Payloads are put into the queue, as long as there is a writer. -/
  | send (ps : List (List α))
  | write
  /-- The write of a frame fails after `n` symbols. -/
  | fail (n : ℕ)
  | arrive (n : ℕ)
  | cut
  | read

def Link.step (H : Header α) (l : Link α) : Event α → Option (Link α)
  | .send ps => some (if l.writing then { l with queue := l.queue ++ ps } else l)
  | .write =>
    match l.queue with
    | [] => none
    | p :: queue => if l.writing then some { l with queue, wire := l.wire ++ H.frame p } else none
  | .fail n =>
    match l.queue with
    | [] => none
    | p :: _ =>
      if l.writing then
        some { l with queue := [], writing := false, wire := l.wire ++ (H.frame p).take n }
      else none
  | .arrive n =>
    if l.cut then none
    else some { l with wire := l.wire.drop n, stream := l.stream ++ l.wire.take n }
  | .cut => some { l with cut := true, wire := [] }
  | .read => (H.next l.stream).map fun x => { l with stream := x.2 }

/-- What a step puts into the queue. -/
def accepted (l : Link α) : Event α → List (List α)
  | .send ps => if l.writing then ps else []
  | _ => []

/-- What a step takes off the stream. -/
def delivered (H : Header α) (l : Link α) : Event α → List (List α)
  | .read => ((H.next l.stream).map Prod.fst).toList
  | _ => []

/-! ### The invariant -/

/-- A link that has accepted `sent` and delivered `received`: the symbols under way are those of the frames
of `flying`, up to a cut, and what waits in the queue comes after them. -/
structure Carries (H : Header α) (sent received : List (List α)) (l : Link α) : Prop where
  order : ∃ flying, (received ++ flying ++ l.queue <+: sent) ∧
    (l.stream ++ (if l.cut then [] else l.wire) <+: H.frames flying) ∧
    (l.writing = true → received ++ flying ++ l.queue = sent) ∧
    (l.writing = true → l.cut = false → l.stream ++ l.wire = H.frames flying)

variable {H : Header α} {sent received : List (List α)} {l l' : Link α} {e : Event α}

theorem carries_new (H : Header α) : Carries H [] [] (.new : Link α) :=
  ⟨[], List.prefix_refl _, List.prefix_refl _, fun _ => rfl, fun _ _ => rfl⟩

/-- **The step lemma.** -/
theorem Carries.step (h : Carries H sent received l) (hsize : ∀ p ∈ sent, p.length < H.bound)
    (hstep : l.step H e = some l') : Carries H (sent ++ accepted l e) (received ++ delivered H l e) l' := by
  obtain ⟨flying, hsent, hwire, hall, hbytes⟩ := h
  cases e with
  | send ps =>
      obtain rfl := Option.some_inj.1 hstep
      change Carries H (sent ++ if l.writing then ps else []) (received ++ []) _
      rw [List.append_nil]
      cases hw : l.writing with
      | false =>
          rw [if_neg Bool.false_ne_true, List.append_nil, if_neg Bool.false_ne_true]
          exact ⟨flying, hsent, hwire, hall, hbytes⟩
      | true =>
          rw [if_pos rfl, if_pos rfl]
          have hall' : received ++ flying ++ (l.queue ++ ps) = sent ++ ps := by
            simp [← hall hw]
          exact ⟨flying, hall' ▸ List.prefix_rfl, hwire, fun _ => hall', fun _ => hbytes hw⟩
  | write =>
      rw [Link.step] at hstep
      change Carries H (sent ++ []) (received ++ []) _
      rw [List.append_nil, List.append_nil]
      cases hq : l.queue with
      | nil => simp [hq] at hstep
      | cons p queue =>
          simp only [hq, Option.ite_none_right_eq_some, Option.some.injEq] at hstep
          obtain ⟨hw, rfl⟩ := hstep
          rw [hq] at hsent hall
          refine ⟨flying ++ [p], ?_, ?_, fun _ => ?_, fun _ hc => ?_⟩
          · simpa using hsent
          · rw [H.frames_append, H.frames_singleton]
            cases hc : l.cut with
            | true =>
                simp only [hc, if_true] at hwire ⊢
                exact hwire.trans (List.prefix_append _ _)
            | false =>
                have hbytes' := congrArg (· ++ H.frame p) (hbytes hw hc)
                simp only [List.append_assoc] at hbytes'
                simp only [Bool.false_eq_true, if_false]
                exact hbytes' ▸ List.prefix_rfl
          · simpa using hall hw
          · rw [H.frames_append, H.frames_singleton, ← List.append_assoc, hbytes hw hc]
  | fail n =>
      rw [Link.step] at hstep
      change Carries H (sent ++ []) (received ++ []) _
      rw [List.append_nil, List.append_nil]
      cases hq : l.queue with
      | nil => simp [hq] at hstep
      | cons p queue =>
          simp only [hq, Option.ite_none_right_eq_some, Option.some.injEq] at hstep
          obtain ⟨hw, rfl⟩ := hstep
          rw [hq] at hsent
          refine ⟨flying ++ [p], ?_, ?_, fun hw' => ?_, fun hw' => ?_⟩
          · refine List.IsPrefix.trans ?_ hsent
            simp
          · rw [H.frames_append, H.frames_singleton]
            cases hc : l.cut with
            | true =>
                simp only [hc, if_true] at hwire ⊢
                exact hwire.trans (List.prefix_append _ _)
            | false =>
                simp only [Bool.false_eq_true, if_false]
                rw [← List.append_assoc, hbytes hw hc]
                exact List.prefix_append_right_inj _ |>.2 (List.take_prefix _ _)
          · cases hw'
          · cases hw'
  | arrive n =>
      simp only [Link.step, Option.ite_none_left_eq_some, Option.some.injEq, Bool.not_eq_true] at hstep
      obtain ⟨hc, rfl⟩ := hstep
      change Carries H (sent ++ []) (received ++ []) _
      rw [List.append_nil, List.append_nil]
      have hmove : l.stream ++ l.wire.take n ++ l.wire.drop n = l.stream ++ l.wire := by
        rw [List.append_assoc, List.take_append_drop]
      refine ⟨flying, hsent, ?_, hall, fun hw hc => ?_⟩
      · simp only [hc, Bool.false_eq_true, if_false] at hwire ⊢
        rw [hmove]
        exact hwire
      · exact hmove.trans (hbytes hw hc)
  | cut =>
      obtain rfl := Option.some_inj.1 hstep
      change Carries H (sent ++ []) (received ++ []) _
      rw [List.append_nil, List.append_nil]
      refine ⟨flying, hsent, ?_, hall, fun _ hc => ?_⟩
      · simp only [if_true, List.append_nil]
        exact (List.prefix_append _ _).trans hwire
      · cases hc
  | read =>
      rw [Link.step, Option.map_eq_some_iff] at hstep
      obtain ⟨⟨p, rest⟩, hnext, rfl⟩ := hstep
      change Carries H (sent ++ []) (received ++ ((H.next l.stream).map Prod.fst).toList) _
      rw [hnext, List.append_nil]
      have hfly : ∀ q ∈ flying, q.length < H.bound := fun q hq =>
        hsize q (hsent.subset (List.mem_append_left _ (List.mem_append_right _ hq)))
      -- what is read is the first of the payloads under way
      obtain ⟨flying', rfl, hstream⟩ := H.next_of_prefix hfly
        ((List.prefix_append _ _).trans hwire) hnext
      rw [hstream, H.frames_cons, List.append_assoc] at hwire hbytes
      refine ⟨flying', ?_, ?_, fun hw => ?_, fun hw hc => ?_⟩
      · simpa using hsent
      · exact (List.prefix_append_right_inj _).1 hwire
      · simpa using hall hw
      · exact List.append_cancel_left (hbytes hw hc)

/-- **Delivery in order, at most once.** -/
theorem Carries.inOrder (h : Carries H sent received l) : received <+: sent := by
  obtain ⟨flying, hsent, -⟩ := h
  rw [List.append_assoc] at hsent
  exact (List.prefix_append _ _).trans hsent

/-- **Complete delivery**, when nothing has failed and nothing is under way. -/
theorem Carries.complete (h : Carries H sent received l) (hw : l.writing = true) (hc : l.cut = false)
    (hqueue : l.queue = []) (hwire : l.wire = []) (hstream : l.stream = []) : received = sent := by
  obtain ⟨flying, -, -, hall, hbytes⟩ := h
  have hnil := hbytes hw hc
  rw [hwire, hstream, List.append_nil] at hnil
  rw [← hall hw, hqueue, H.frames_eq_nil hnil.symm, List.append_nil, List.append_nil]

end FramedLink
