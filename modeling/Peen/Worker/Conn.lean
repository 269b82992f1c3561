import Peen.Base
import Peen.Lib.Chunks

/-!
# Frames of a worker connection

A worker and its controller exchange frames over one Unix socket, each frame one line of JSON.
Writes are serialized, so what a connection sends is one sequence.
-/

namespace Peen.Worker

open Chunks List

/-- The limit of both sides. -/
def maxFrameBytes : Nat := 32 <<< 20

/-- `Kind`; a frame may carry any text as its kind. -/
inductive Kind where
  | hello
  | helloAck
  | call
  | result
  | command
  | commandResult
  | other (text : String)
  deriving DecidableEq

/-- `Error`: one failure as it crosses the socket. -/
structure WireError where
  code : String
  message : String
  deriving DecidableEq

/-- `Frame`. A payload is raw JSON; the empty text is the payload that is left out. -/
structure Frame where
  kind : Kind
  id : String := ""
  method : String := ""
  payload : List UInt8 := []
  error : Option WireError := none
  deriving DecidableEq

/-- `encoding/json` on frames, and when two payloads are the same JSON value. -/
structure Encoding where
  marshal : Frame → Option (List UInt8)
  unmarshal : List UInt8 → Option Frame
  sameValue : List UInt8 → List UInt8 → Prop

/-- Two frames are equal, their payloads compared as JSON values. -/
structure Frame.Same (e : Encoding) (f g : Frame) : Prop where
  kind : g.kind = f.kind
  id : g.id = f.id
  method : g.method = f.method
  payload : e.sameValue f.payload g.payload
  error : g.error = f.error

/-- What is assumed of the encoder: it emits no raw newline, and a line that ends after an encoding
decodes to the frame. -/
structure Encoding.Lawful (e : Encoding) : Prop where
  noNewline : ∀ f bytes, e.marshal f = some bytes → newline ∉ bytes
  roundTrip : ∀ f bytes, e.marshal f = some bytes →
    ∃ g, e.unmarshal (bytes ++ [newline]) = some g ∧ f.Same e g

/-! ## Sending -/

/-- The writing end of a socket: the bytes that went out, and whether a write failed. -/
structure Socket where
  written : List UInt8 := []
  broken : Bool := false

/-- `net.Conn.Write`. A fault lets some bytes out and breaks the socket. -/
def Socket.write (s : Socket) (data : List UInt8) (fault : Option Nat) : Except Err Unit × Socket :=
  if s.broken then (.error ⟨.connection, "write protocol frame"⟩, s)
  else match fault with
    | none => (.ok (), { s with written := s.written ++ data })
    | some count =>
      (.error ⟨.connection, "write protocol frame"⟩,
        { written := s.written ++ data.take count, broken := true })

def errFrameTooLarge : Err := ⟨.validationFailed, "protocol frame exceeds the limit"⟩

/-- Encode, compare, write. A socket that failed stays broken. -/
def send (e : Encoding) (s : Socket) (fault : Option Nat) (frame : Frame) :
    Except Err Unit × Socket :=
  match e.marshal frame with
  | none => (.error ⟨.encoding, "encode protocol frame"⟩, s)
  | some encoded =>
    if encoded.length > maxFrameBytes then (.error errFrameTooLarge, s)
    else s.write (encoded ++ [newline]) fault

/-- A sequence of sends: the frames whose `Send` succeeded, and the socket after them. -/
def sendAll (e : Encoding) : Socket → List (Frame × Option Nat) → List Frame × Socket
  | s, [] => ([], s)
  | s, (frame, fault) :: sends =>
    let rest := sendAll e (send e s fault frame).2 sends
    match (send e s fault frame).1 with
    | .ok _ => (frame :: rest.1, rest.2)
    | .error _ => rest

/-! ## Receiving -/

def errLineTooLarge (count : Nat) : Err :=
  ⟨.validationFailed, "protocol frame of " ++ toString count ++ " bytes exceeds the limit"⟩

/-- Read a line, compare it with its newline, decode. -/
def receive (e : Encoding) (r : Reader UInt8) : Except Err Frame × Reader UInt8 :=
  let ((line, found), r) := r.readUntil newline
  if !found && line.length == 0 then (.error ⟨.connection, "read protocol frame"⟩, r)
  else if line.length > maxFrameBytes then (.error (errLineTooLarge line.length), r)
  else match e.unmarshal line with
    | none => (.error ⟨.encoding, "decode protocol frame"⟩, r)
    | some frame => (.ok frame, r)

def receiveAll (e : Encoding) : Nat → Reader UInt8 → List (Except Err Frame)
  | 0, _ => []
  | count + 1, r => (receive e r).1 :: receiveAll e count (receive e r).2

/-! ## What arrives -/

section
variable {e : Encoding} {s : Socket} {frame : Frame}

/-- What `Send` can do: refuse the frame and write nothing, write its line, or fail on the socket,
which is broken afterwards. -/
theorem send_cases (e : Encoding) (s : Socket) (fault : Option Nat) (frame : Frame) :
    (∃ err, send e s fault frame = (.error err, s)) ∨
    (∃ encoded, e.marshal frame = some encoded ∧ encoded.length ≤ maxFrameBytes ∧
      send e s fault frame =
        (.ok (), { s with written := s.written ++ (encoded ++ [newline]) })) ∨
    ∃ err part, send e s fault frame = (.error err, ⟨s.written ++ part, true⟩) := by
  unfold send
  cases hm : e.marshal frame with
  | none => exact .inl ⟨_, rfl⟩
  | some encoded =>
    dsimp only
    by_cases hlen : encoded.length > maxFrameBytes
    · rw [if_pos hlen]
      exact .inl ⟨_, rfl⟩
    · rw [if_neg hlen]
      unfold Socket.write
      by_cases hb : s.broken = true
      · rw [if_pos hb]
        exact .inl ⟨_, rfl⟩
      · rw [if_neg hb]
        cases fault with
        | none => exact .inr (.inl ⟨encoded, rfl, Nat.le_of_not_lt hlen, rfl⟩)
        | some count => exact .inr (.inr ⟨_, _, rfl⟩)

/-- **A frame beyond the limit writes nothing**, and the sender learns why. -/
theorem send_too_large (hm : e.marshal frame = some encoded)
    (hlen : maxFrameBytes < encoded.length) :
    send e s fault frame = (.error errFrameTooLarge, s) := by
  unfold send
  rw [hm]
  exact if_pos hlen

theorem sendAll_broken (hb : s.broken = true) (sends : List (Frame × Option Nat)) :
    sendAll e s sends = ([], s) := by
  induction sends with
  | nil => rfl
  | cons head sends ih =>
    obtain ⟨frame, fault⟩ := head
    have hsend : ∃ err, send e s fault frame = (.error err, s) := by
      unfold send
      split
      · exact ⟨_, rfl⟩
      · split
        · exact ⟨_, rfl⟩
        · unfold Socket.write
          rw [if_pos hb]
          exact ⟨_, rfl⟩
    obtain ⟨err, hsend⟩ := hsend
    rw [sendAll, hsend]
    exact ih

def line (e : Encoding) (frame : Frame) : List UInt8 := (e.marshal frame).getD [] ++ [newline]

/-- What a sequence of sends writes: the lines of the frames that were sent, one after the other,
and perhaps a part of one that was not. -/
theorem written_sendAll (e : Encoding) (s : Socket) (sends : List (Frame × Option Nat)) :
    (∀ frame ∈ (sendAll e s sends).1, ∃ encoded, e.marshal frame = some encoded ∧
      encoded.length ≤ maxFrameBytes) ∧
    ∃ part, (sendAll e s sends).2.written =
      s.written ++ ((sendAll e s sends).1.map (line e)).flatten ++ part := by
  induction sends generalizing s with
  | nil =>
    refine ⟨nofun, [], ?_⟩
    simp only [sendAll, map_nil, flatten_nil, append_nil]
  | cons head sends ih =>
    obtain ⟨frame, fault⟩ := head
    rcases send_cases e s fault frame with ⟨err, hs⟩ | ⟨encoded, hm, hlen, hs⟩ | ⟨err, part, hs⟩
    · rw [sendAll, hs]
      exact ih s
    · rw [sendAll, hs]
      dsimp only
      obtain ⟨hsent, part, hw⟩ := ih { s with written := s.written ++ (encoded ++ [newline]) }
      refine ⟨?_, part, ?_⟩
      · intro f hf
        rcases mem_cons.1 hf with rfl | hf
        · exact ⟨encoded, hm, hlen⟩
        · exact hsent f hf
      · have hline : line e frame = encoded ++ [newline] := by rw [line, hm]; rfl
        rw [hw, map_cons, flatten_cons, hline]
        simp only [append_assoc]
    · rw [sendAll, hs, sendAll_broken rfl]
      refine ⟨nofun, part, ?_⟩
      rw [map_nil, flatten_nil, append_nil]

/-- One receive on a stream that begins with a sent line: the line is taken off the stream, and it
is refused exactly if the encoding is as long as the limit. -/
theorem receive_line (he : e.Lawful) (hm : e.marshal frame = some encoded)
    (hlen : encoded.length ≤ maxFrameBytes) {r : Reader UInt8}
    (hr : r.stream = line e frame ++ rest) :
    (receive e r).2.stream = rest ∧
      (encoded.length = maxFrameBytes ∧
          (receive e r).1 = .error (errLineTooLarge (maxFrameBytes + 1)) ∨
        encoded.length ≠ maxFrameBytes ∧ ∃ g, (receive e r).1 = .ok g ∧ frame.Same e g) := by
  have hline : line e frame = encoded ++ [newline] := by rw [line, hm]; rfl
  rw [hline, append_assoc] at hr
  obtain ⟨r', hread, hstream⟩ := Reader.readUntil_spec (he.noNewline frame encoded hm) hr
  have hlength : (encoded ++ [newline]).length = encoded.length + 1 := length_append
  unfold receive
  rw [hread]
  dsimp only
  rw [if_neg (by simp), hlength]
  by_cases hmax : encoded.length = maxFrameBytes
  · rw [if_pos (by omega), hmax]
    exact ⟨hstream, .inl ⟨rfl, rfl⟩⟩
  · rw [if_neg (by omega)]
    obtain ⟨g, hg, hsame⟩ := he.roundTrip frame encoded hm
    rw [hg]
    exact ⟨hstream, .inr ⟨hmax, g, rfl, hsame⟩⟩

theorem receiveAll_lines (he : e.Lawful) (frames : List Frame)
    (hframes : ∀ frame ∈ frames, ∃ encoded, e.marshal frame = some encoded ∧
      encoded.length ≤ maxFrameBytes)
    {r : Reader UInt8} (hr : r.stream = (frames.map (line e)).flatten ++ part) :
    Forall₂ (fun frame result => (∃ g, result = .ok g ∧ frame.Same e g) ↔
      ∀ encoded, e.marshal frame = some encoded → encoded.length ≠ maxFrameBytes)
      frames (receiveAll e frames.length r) := by
  induction frames generalizing r with
  | nil => exact .nil
  | cons frame frames ih =>
    obtain ⟨encoded, hm, hlen⟩ := hframes frame mem_cons_self
    rw [map_cons, flatten_cons, append_assoc] at hr
    obtain ⟨hrest, hcase⟩ := receive_line he hm hlen hr
    refine .cons ?_ (ih (fun f hf => hframes f (mem_cons_of_mem _ hf)) hrest)
    rcases hcase with ⟨hmax, hres⟩ | ⟨hmax, hres⟩
    · rw [hres]
      exact ⟨fun ⟨g, h, _⟩ => (nomatch h), fun h => absurd hmax (h encoded hm)⟩
    · refine ⟨fun _ encoded' hm' => ?_, fun _ => hres⟩
      rw [hm] at hm'
      cases hm'
      exact hmax

/-- **What is sent is received.** For every sequence of sends and every splitting of what they write
into reads, the peer's receives answer the frames that were sent one by one and in order: a receive
returns its frame, as JSON values, exactly if the frame's encoding is not as long as the limit. A
frame that is refused for its size writes nothing. -/
theorem frame_received_iff (e : Encoding) (he : e.Lawful) (sends : List (Frame × Option Nat))
    (reads : List (Chunk UInt8))
    (hreads : (reads.map Subtype.val).flatten = (sendAll e {} sends).2.written) :
    Forall₂ (fun frame result => (∃ g, result = .ok g ∧ frame.Same e g) ↔
        ∀ encoded, e.marshal frame = some encoded → encoded.length ≠ maxFrameBytes)
      (sendAll e {} sends).1 (receiveAll e (sendAll e {} sends).1.length { reads }) ∧
    ∀ (s : Socket) (fault : Option Nat) (frame : Frame) (encoded : List UInt8),
      e.marshal frame = some encoded → maxFrameBytes < encoded.length →
        send e s fault frame = (.error errFrameTooLarge, s) := by
  obtain ⟨hsent, part, hw⟩ := written_sendAll e {} sends
  have hstream : ({ reads } : Reader UInt8).stream =
      ((sendAll e {} sends).1.map (line e)).flatten ++ part := by
    show [] ++ _ = _
    rw [nil_append, hreads, hw, nil_append]
  exact ⟨receiveAll_lines he _ hsent hstream, fun s fault frame encoded => send_too_large⟩

end

/-! ## At the limit -/

def resultHeader : List UInt8 := ascii "\x7b\"kind\":\"result\",\"payload\":"

/-- The encoder on result frames that carry a payload and nothing else. -/
def resultEncoding : Encoding where
  marshal frame :=
    if frame = { kind := .result, payload := frame.payload } ∧ newline ∉ frame.payload then
      some (resultHeader ++ (frame.payload ++ [0x7D]))
    else none
  unmarshal bytes :=
    some { kind := .result, payload := (bytes.drop resultHeader.length).dropLast.dropLast }
  sameValue := Eq

theorem resultEncoding_lawful : resultEncoding.Lawful where
  noNewline f bytes h := by
    simp only [resultEncoding, Option.ite_none_right_eq_some] at h
    obtain ⟨⟨-, hpayload⟩, he⟩ := h
    cases he
    have hhd : newline ∉ resultHeader := by decide
    have hbrace : newline ∉ [(0x7D : UInt8)] := by decide
    simp only [mem_append, not_or]
    exact ⟨hhd, hpayload, hbrace⟩
  roundTrip f bytes h := by
    simp only [resultEncoding, Option.ite_none_right_eq_some] at h
    obtain ⟨⟨hf, -⟩, he⟩ := h
    cases he
    refine ⟨{ kind := .result, payload := f.payload }, ?_, ?_⟩
    · simp only [resultEncoding, append_assoc, drop_left]
      rw [← append_assoc, dropLast_concat, dropLast_concat]
    · rw [hf]
      exact ⟨rfl, rfl, rfl, rfl, rfl⟩

/-- A result frame whose payload is a string of the given length. -/
def textFrame (count : Nat) : Frame :=
  { kind := .result, payload := 0x22 :: (replicate count 0x61 ++ [0x22]) }

theorem marshal_textFrame (count : Nat) :
    ∃ encoded, resultEncoding.marshal (textFrame count) = some encoded ∧
      encoded.length = count + 30 := by
  have hnewline : newline ∉ (textFrame count).payload := by
    simp [textFrame, newline, mem_replicate]
  refine ⟨_, if_pos ⟨rfl, hnewline⟩, ?_⟩
  have hhd : resultHeader.length = 27 := by decide
  simp only [length_append, hhd, textFrame, length_cons, length_replicate, length_nil]
  omega

theorem refused_of_limit {count : Nat} (hct : count + 30 = maxFrameBytes) :
    (send resultEncoding {} none (textFrame count)).1 = .ok () ∧
    ∀ reads : List (Chunk UInt8),
      (reads.map Subtype.val).flatten =
        (send resultEncoding {} none (textFrame count)).2.written →
      (receive resultEncoding { reads }).1 = .error (errLineTooLarge (maxFrameBytes + 1)) := by
  obtain ⟨encoded, hm, hlen⟩ := marshal_textFrame count
  have hmax : encoded.length = maxFrameBytes := hlen.trans hct
  have hsend : send resultEncoding {} none (textFrame count) =
      (.ok (), { written := [] ++ (encoded ++ [newline]) }) := by
    unfold send
    rw [hm]
    exact if_neg (by omega)
  refine ⟨by rw [hsend], fun reads hrd => ?_⟩
  have hstream : ({ reads } : Reader UInt8).stream =
      line resultEncoding (textFrame count) ++ [] := by
    show [] ++ _ = _
    rw [hrd, hsend, line, hm, append_nil]
    rfl
  rcases (receive_line resultEncoding_lawful hm (Nat.le_of_eq hmax) hstream).2 with
    ⟨-, hres⟩ | ⟨hne, -⟩
  · exact hres
  · exact absurd hmax hne

def limitFrame : Frame := textFrame (maxFrameBytes - 30)

/-- It is sent as a whole and refused by the peer, whose line is one byte longer. -/
theorem limit_frame_refused :
    resultEncoding.Lawful ∧ (send resultEncoding {} none limitFrame).1 = .ok () ∧
    ∀ reads : List (Chunk UInt8),
      (reads.map Subtype.val).flatten = (send resultEncoding {} none limitFrame).2.written →
      (receive resultEncoding { reads }).1 = .error (errLineTooLarge (maxFrameBytes + 1)) := by
  have hcount : maxFrameBytes - 30 + 30 = maxFrameBytes := by decide
  have hrefused := refused_of_limit hcount
  rw [limitFrame]
  exact ⟨resultEncoding_lawful, hrefused⟩

/-- Two short frames, one behind the other. -/
def twoSends : List (Frame × Option Nat) := [(textFrame 1, none), (textFrame 2, none)]

/-- The second read holds the end of the first frame and the beginning of the second. -/
def threeReads : List (Chunk UInt8) :=
  [⟨resultHeader, by decide⟩, ⟨[0x22, 0x61, 0x22, 0x7D, 0x0A] ++ resultHeader, by decide⟩,
    ⟨[0x22, 0x61, 0x61, 0x22, 0x7D, 0x0A], by decide⟩]

/-- The peer receives both frames from these reads. -/
theorem frame_received_threeReads :
    (threeReads.map Subtype.val).flatten = (sendAll resultEncoding {} twoSends).2.written ∧
    (sendAll resultEncoding {} twoSends).1 = [textFrame 1, textFrame 2] ∧
    (receiveAll resultEncoding 2 { reads := threeReads }).map Except.toOption =
      [some (textFrame 1), some (textFrame 2)] ∧
    Forall₂ (fun frame result => (∃ g, result = .ok g ∧ frame.Same resultEncoding g) ↔
        ∀ encoded, resultEncoding.marshal frame = some encoded → encoded.length ≠ maxFrameBytes)
      (sendAll resultEncoding {} twoSends).1
      (receiveAll resultEncoding (sendAll resultEncoding {} twoSends).1.length
        { reads := threeReads }) := by
  have hreads : (threeReads.map Subtype.val).flatten =
      (sendAll resultEncoding {} twoSends).2.written := by decide +kernel
  refine ⟨hreads, by decide +kernel, by decide +kernel, ?_⟩
  exact (frame_received_iff resultEncoding resultEncoding_lawful twoSends threeReads hreads).1

end Peen.Worker
