/-
**The framing of messages.**

`src/network/server.rs`: each registered connection has a task that writes the messages of its queue to the
stream, and a task that reads messages from it.  A message goes as a frame: its length in four bytes, the
most significant first, and its bytes.  The reader keeps one buffer for all messages, which it enlarges when
a message does not fit and otherwise overwrites from the front.

Main definitions:

* `BitcoinClient.Framing.writerLoop` — the bytes that the writer task writes;
* `BitcoinClient.Framing.readerLoop` — the payloads that the reader task sends on.

Main results:

* `BitcoinClient.Framing.readerLoop_eq` — the buffer does not matter: the reader takes frames off the stream;
* `BitcoinClient.Framing.reader_delivers` — **the round trip**, and a stream that is cut.
-/

import BitcoinClient.LengthPrefix

set_option relaxedAutoImplicit false
set_option autoImplicit false

namespace BitcoinClient.Framing

open LengthPrefix

abbrev Payload := List UInt8

/-! ### The writer -/

/-- The writer task: each message of the queue is written behind its length, as a `u32`. -/
def writerLoop : List Payload → List UInt8
  | [] => []
  | newMsg :: writeQueue =>
    let sizeBuffer := toBeBytes 4 (newMsg.length % 2 ^ 32)
    sizeBuffer ++ newMsg ++ writerLoop writeQueue

/-! ### The reader -/

/-- Reading exactly `n` bytes; `none` when the stream ends before. -/
def readExact (n : ℕ) (stream : List UInt8) : Option (List UInt8 × List UInt8) :=
  if n ≤ stream.length then some (stream.take n, stream.drop n) else none

/-- A buffer of `n` bytes at least, the new ones zero. -/
def resize (buffer : List UInt8) (n : ℕ) : List UInt8 :=
  buffer ++ List.replicate (n - buffer.length) 0

structure Reader where
  stream : List UInt8
  msgBuffer : List UInt8

/-- One iteration of the reader task: the payload it sends on; `none` when it stops. -/
def readFrame (r : Reader) : Option (Payload × Reader) := do
  -- first, read exactly 4 bytes to get the frame header
  let (sizeBuffer, stream) ← readExact 4 r.stream
  let msgSize := fromBeBytes sizeBuffer
  -- then, read exactly `msgSize` bytes to get the whole message
  let msgBuffer := if r.msgBuffer.length < msgSize then resize r.msgBuffer msgSize else r.msgBuffer
  let (bytes, stream) ← readExact msgSize stream
  let msgBuffer := bytes ++ msgBuffer.drop msgSize
  some (msgBuffer.take msgSize, { stream, msgBuffer })

theorem readExact_eq_some {n : ℕ} {stream bytes rest : List UInt8}
    (h : readExact n stream = some (bytes, rest)) :
    bytes.length = n ∧ stream = bytes ++ rest := by
  obtain ⟨hle, hpair⟩ := Option.ite_none_right_eq_some.1 h
  obtain ⟨rfl, rfl⟩ := Prod.mk.inj (Option.some_inj.1 hpair)
  rw [List.length_take, Nat.min_eq_left hle, List.take_append_drop]
  exact ⟨rfl, rfl⟩

/-- What an iteration does: it takes a header and as many bytes as it tells off the stream. -/
theorem readFrame_cases {r r' : Reader} {payload : Payload}
    (h : readFrame r = some (payload, r')) :
    ∃ hd, hd.length = 4 ∧ fromBeBytes hd = payload.length ∧
      r.stream = hd ++ payload ++ r'.stream := by
  simp only [readFrame, Option.bind_eq_bind, Option.bind_eq_some_iff, Prod.exists,
    Option.some.injEq] at h
  obtain ⟨hd, stream, hhd, bytes, rest, hbytes, hpair⟩ := h
  obtain ⟨rfl, rfl⟩ := Prod.mk.inj hpair
  obtain ⟨hlen, hstream⟩ := readExact_eq_some hhd
  obtain ⟨hsize, rfl⟩ := readExact_eq_some hbytes
  -- the message lies before whatever else the buffer holds
  rw [← hsize, List.take_left]
  exact ⟨hd, hlen, hsize.symm, by rw [hstream, List.append_assoc]⟩

theorem length_of_readFrame {r r' : Reader} {payload : Payload}
    (h : readFrame r = some (payload, r')) : r'.stream.length < r.stream.length := by
  obtain ⟨hd, hlen, -, hstream⟩ := readFrame_cases h
  rw [hstream, List.length_append, List.length_append]
  omega

/-- The reader task: the payloads that it sends on, until it stops. -/
def readerLoop (r : Reader) : List Payload :=
  match _h : readFrame r with
  | none => []
  | some (newPayload, r') => newPayload :: readerLoop r'
termination_by r.stream.length
decreasing_by exact length_of_readFrame _h

/-- A peer has registered: the buffer is empty. -/
def Reader.new (stream : List UInt8) : Reader := { stream, msgBuffer := [] }

/-! ### The frames -/

/-- The header of four bytes. -/
def header : Header UInt8 where
  size := 4
  bound := 2 ^ 32
  encode n := toBeBytes 4 (n % 2 ^ 32)
  decode := fromBeBytes
  size_pos := by decide
  length_encode n := length_toBeBytes 4 _
  decode_encode n hn := by
    rw [fromBeBytes_toBeBytes, Nat.mod_eq_of_lt hn]
    exact Nat.mod_eq_of_lt hn

theorem writerLoop_eq (ps : List Payload) : writerLoop ps = header.frames ps := by
  induction ps with
  | nil => rfl
  | cons p ps ih =>
      rw [writerLoop, ih, Header.frames_cons]
      rfl

theorem readExact_append {n : ℕ} {bytes : List UInt8} (h : bytes.length = n) (rest : List UInt8) :
    readExact n (bytes ++ rest) = some (bytes, rest) := by
  rw [← h, readExact, if_pos, List.take_left, List.drop_left]
  rw [List.length_append]
  exact Nat.le_add_right ..

theorem readFrame_append {hd payload : List UInt8} (hhd : hd.length = 4)
    (hsize : fromBeBytes hd = payload.length) (rest msgBuffer : List UInt8) :
    ∃ msgBuffer', readFrame { stream := hd ++ payload ++ rest, msgBuffer } =
      some (payload, { stream := rest, msgBuffer := msgBuffer' }) := by
  simp only [readFrame, Option.bind_eq_bind, Option.bind_eq_some_iff, Prod.exists,
    Option.some.injEq]
  refine ⟨_, hd, payload ++ rest, ?_, payload, rest, ?_, Prod.ext ?_ rfl⟩
  · rw [List.append_assoc, readExact_append hhd]
  · exact readExact_append hsize.symm rest
  · rw [hsize, List.take_left]

/-- **An iteration takes the next frame**, whatever is in the buffer. -/
theorem map_readFrame (r : Reader) :
    (readFrame r).map (fun x => (x.1, x.2.stream)) = header.next r.stream := by
  cases hread : readFrame r with
  | some x =>
      obtain ⟨payload, r'⟩ := x
      obtain ⟨hd, hhd, hsize, hstream⟩ := readFrame_cases hread
      rw [hstream, Header.next_append hhd hsize]
      rfl
  | none =>
      cases hnext : header.next r.stream with
      | none => rfl
      | some x =>
          obtain ⟨payload, rest⟩ := x
          obtain ⟨hd, hhd, hsize, hstream⟩ := Header.next_eq_some hnext
          obtain ⟨msgBuffer', hsome⟩ := readFrame_append hhd hsize rest r.msgBuffer
          rw [← hstream, hread] at hsome
          cases hsome

/-- **The reader task** delivers what the frames of the stream contain: what is in the buffer does not
matter. -/
theorem readerLoop_eq (r : Reader) : readerLoop r = header.parse r.stream := by
  induction r using readerLoop.induct with
  | case1 r hread =>
      have hnext := map_readFrame r
      rw [hread, Option.map_none] at hnext
      rw [readerLoop, Header.parse_of_none hnext.symm]
      split
      · rfl
      · rename_i hsome
        rw [hread] at hsome
        cases hsome
  | case2 r payload r' hread ih =>
      have hnext := map_readFrame r
      rw [hread, Option.map_some] at hnext
      rw [readerLoop, Header.parse_of_some hnext.symm, ← ih]
      split
      · rename_i hnone
        rw [hread] at hnone
        cases hnone
      · rename_i hsome
        rw [hread, Option.some_inj] at hsome
        obtain ⟨rfl, rfl⟩ := Prod.mk.inj hsome
        rfl

/-! ### The round trip -/

/-- **Framing is faithful.**  From the frames of any payloads shorter than `2 ^ 32` bytes the reader delivers
these payloads in their order.  When the stream ends after `k` bytes, it delivers the payloads whose frames
are complete, of which there are `m`, and stops. -/
theorem reader_delivers {payloads : List Payload} (h : ∀ p ∈ payloads, p.length < 2 ^ 32) :
    readerLoop (.new (writerLoop payloads)) = payloads ∧
      ∀ k, ∃ m, readerLoop (.new ((writerLoop payloads).take k)) = payloads.take m ∧
        (writerLoop (payloads.take m)).length ≤ k ∧
        (m < payloads.length → k < (writerLoop (payloads.take (m + 1))).length) := by
  simp only [readerLoop_eq, writerLoop_eq]
  exact ⟨Header.parse_frames h, Header.exists_parse_take h⟩

/-- An empty message between two others, and a stream that is cut in the last one. -/
theorem reader_delivers_three :
    readerLoop (.new (writerLoop [[1, 2, 3], [], [4]])) = [[1, 2, 3], [], [4]] ∧
      readerLoop (.new ((writerLoop [[1, 2, 3], [], [4]]).take 14)) = [[1, 2, 3], []] := by
  have hfits : ∀ p ∈ ([[1, 2, 3], [], [4]] : List Payload), p.length < 2 ^ 32 := by decide
  obtain ⟨hall, hcut⟩ := reader_delivers hfits
  obtain ⟨m, hm, hle, hlt⟩ := hcut 14
  refine ⟨hall, hm.trans ?_⟩
  -- the first frame has 7 bytes, the first two have 11, all have 16
  rcases m with _ | _ | _ | m
  · exact absurd (hlt (by decide)) (by decide)
  · exact absurd (hlt (by decide)) (by decide)
  · rfl
  · rw [List.take_of_length_le (Nat.le_add_left 3 m)] at hle
    exact absurd hle (by decide)

end BitcoinClient.Framing
