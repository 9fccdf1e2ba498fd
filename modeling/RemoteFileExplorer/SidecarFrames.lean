import RemoteFileExplorer.ByteStreams

namespace RemoteFileExplorer.SidecarFrames
open ByteStreams

abbrev Bytes := List UInt8

structure Frame where
  kind : UInt8
  payload : Bytes
  deriving DecidableEq, Repr

-- MAX_FRAME_BYTES of the crate and maxFrameBytes of the client.
def maxFrameBytes : Nat := 160 * 2^20

inductive FrameError where
  | tooLarge
  | badLength (n : Nat)
  | unexpectedEof
  | truncated
  deriving DecidableEq, Repr

inductive Outcome where
  | frame (f : Frame) (rest : Source UInt8)
  | endOfStream
  | failed (e : FrameError)

-- The crate's side: three writes to the stream, and one read for the length,
-- one for the kind and one for the payload.
namespace Rust

def writeFrame (stream : Bytes) (kind : UInt8) (payload : Bytes) : Except FrameError Bytes :=
  let len := payload.length + 1
  if len > maxFrameBytes then .error .tooLarge else
  .ok (((stream ++ be32 (len % 2^32)) ++ [kind]) ++ payload)

-- A stream that ends inside the length is taken for one that ends before it.
def readFrame (r : Source UInt8) : Outcome :=
  let (lenBuf,r) := fill 4 r
  if lenBuf.length < 4 then .endOfStream else
  let len := fromBE lenBuf
  if len = 0 ∨ len > maxFrameBytes then .failed (.badLength len) else
  match fill 1 r with
  | ([],_) => .failed .unexpectedEof
  | (kind::_,r) =>
    let want := len - 1
    let (payload,r) := fill want r
    if payload.length ≠ want then .failed .truncated else .frame ⟨kind,payload⟩ r

end Rust

-- The client's side: one write, and kind and payload in one buffer.
namespace Go

def writeFrame (stream : Bytes) (kind : UInt8) (payload : Bytes) : Except FrameError Bytes :=
  if payload.length + 1 > maxFrameBytes then .error .tooLarge else
  let hdr := be32 ((payload.length + 1) % 2^32) ++ [kind]
  .ok (stream ++ (hdr ++ payload))

def readFrame (r : Source UInt8) : Outcome :=
  let (lenBuf,r) := fill 4 r
  if lenBuf = [] then .endOfStream else
  if lenBuf.length < 4 then .failed .unexpectedEof else
  let n := fromBE lenBuf
  if n = 0 ∨ n > maxFrameBytes then .failed (.badLength n) else
  let (buf,r) := fill n r
  if buf.length ≠ n then .failed .unexpectedEof else
  match buf with
  | [] => .failed .unexpectedEof
  | kind::payload => .frame ⟨kind,payload⟩ r

end Go

-- A sender goes on after a frame that was refused.
def writeFrames (writeFrame : Bytes → UInt8 → Bytes → Except FrameError Bytes) (frames : List Frame) : Bytes :=
  frames.foldl (fun stream f => ((writeFrame stream f.kind f.payload).toOption).getD stream) []

inductive End where
  | clean
  | failed (e : FrameError)
  | unread
  deriving DecidableEq, Repr

-- Reads at most so many frames; `unread` says that the stream had not ended by then.
def readFrames (readFrame : Source UInt8 → Outcome) : Nat → Source UInt8 → List Frame × End
  | 0,_ => ([],.unread)
  | reads + 1,r =>
    match readFrame r with
    | .endOfStream => ([],.clean)
    | .failed e => ([],.failed e)
    | .frame f rest =>
      let (frames,last) := readFrames readFrame reads rest
      (f::frames,last)

def fits (f : Frame) : Bool := f.payload.length + 1 ≤ maxFrameBytes

def wire (f : Frame) : Bytes := be32 (f.payload.length + 1) ++ f.kind::f.payload

theorem fits_length (small : fits f = true) : (f.payload.length + 1) % 2^32 = f.payload.length + 1 ∧
    f.payload.length + 1 ≤ maxFrameBytes := by
  simp only [fits,decide_eq_true_eq] at small
  refine ⟨Nat.mod_eq_of_lt ?_,small⟩
  exact Nat.lt_of_le_of_lt small (by decide)

theorem rust_writes (stream : Bytes) (f : Frame) :
    ((Rust.writeFrame stream f.kind f.payload).toOption).getD stream = stream ++ (if fits f then wire f else []) := by
  unfold Rust.writeFrame
  by_cases small : fits f = true
  · obtain ⟨whole,short⟩ := fits_length small
    rw [if_neg (by omega),if_pos small,whole]
    simp [Except.toOption,wire]
  · have long : f.payload.length + 1 > maxFrameBytes := by simpa [fits] using small
    rw [if_pos long,if_neg small]
    simp [Except.toOption]

theorem go_writes (stream : Bytes) (f : Frame) :
    ((Go.writeFrame stream f.kind f.payload).toOption).getD stream = stream ++ (if fits f then wire f else []) := by
  unfold Go.writeFrame
  by_cases small : fits f = true
  · obtain ⟨whole,short⟩ := fits_length small
    rw [if_neg (by omega),if_pos small,whole]
    simp [Except.toOption,wire]
  · have long : f.payload.length + 1 > maxFrameBytes := by simpa [fits] using small
    rw [if_pos long,if_neg small]
    simp [Except.toOption]

-- Both sides put the same bytes on the wire, and nothing for a refused frame.
theorem writeFrames_wire
    (writes : ∀ stream f, ((writeFrame stream f.kind f.payload).toOption).getD stream = stream ++ (if fits f then wire f else []))
    (frames : List Frame) : writeFrames writeFrame frames = ((frames.filter fits).map wire).flatten := by
  have from_ : ∀ stream, frames.foldl (fun stream f => ((writeFrame stream f.kind f.payload).toOption).getD stream) stream =
      stream ++ ((frames.filter fits).map wire).flatten := by
    induction frames with
    | nil => simp
    | cons f rest ih =>
      intro stream
      rw [List.foldl_cons,writes,ih]
      by_cases small : fits f = true
      · simp [small]
      · simp [small]
  simpa [writeFrames] using from_ []

structure Reads (readFrame : Source UInt8 → Outcome) : Prop where
  ends : ∀ r, content r = [] → readFrame r = .endOfStream
  takes : ∀ r f rest, fits f = true → content r = wire f ++ rest →
    ∃ later, readFrame r = .frame f later ∧ content later = rest

theorem readFrames_wire (reads : Reads readFrame) (frames : List Frame)
    (small : ∀ f ∈ frames, fits f = true) (whole : content r = (frames.map wire).flatten) (more : Nat) :
    readFrames readFrame (frames.length + 1 + more) r = (frames,.clean) := by
  induction frames generalizing r with
  | nil =>
    have stops := reads.ends r (by simpa using whole)
    rw [show ([] : List Frame).length + 1 + more = more + 1 by simp [Nat.add_comm]]
    simp [readFrames,stops]
  | cons f rest ih =>
    obtain ⟨later,taken,left⟩ := reads.takes r f _ (small f List.mem_cons_self) whole
    have tail := ih (fun g member => small g (List.mem_cons_of_mem f member)) left
    rw [show (f::rest).length + 1 + more = rest.length + 1 + more + 1 by simp; omega]
    simp [readFrames,taken,tail]

theorem fill_front (whole : content r = front ++ rest) (size : front.length = want) :
    ∃ later, fill want r = (front,later) ∧ content later = rest := by
  subst size
  obtain ⟨taken,left⟩ := fill_content front.length r
  rw [whole,List.take_left] at taken
  rw [whole,List.drop_left] at left
  exact ⟨_,Prod.ext taken rfl,left⟩

theorem fill_end (want : Nat) (empty : content r = []) : ∃ later, fill want r = ([],later) := by
  obtain ⟨taken,_⟩ := fill_content want r
  rw [empty,List.take_nil] at taken
  exact ⟨_,Prod.ext taken rfl⟩

theorem length_ok (small : fits f = true) :
    ¬ (f.payload.length + 1 = 0 ∨ f.payload.length + 1 > maxFrameBytes) ∧ fromBE (be32 (f.payload.length + 1)) = f.payload.length + 1 := by
  obtain ⟨_,short⟩ := fits_length small
  refine ⟨by omega,fromBE_be32 ?_⟩
  exact Nat.lt_of_le_of_lt short (by decide)

theorem rust_reads : Reads Rust.readFrame := by
  refine ⟨?_,?_⟩
  · intro r empty
    obtain ⟨later,filled⟩ := fill_end 4 empty
    simp [Rust.readFrame,filled]
  · intro r f rest small whole
    obtain ⟨good,decoded⟩ := length_ok small
    have split : content r = be32 (f.payload.length + 1) ++ ([f.kind] ++ (f.payload ++ rest)) := by simpa [wire] using whole
    obtain ⟨afterLen,lenFilled,lenLeft⟩ := fill_front split (be32_length _)
    obtain ⟨afterKind,kindFilled,kindLeft⟩ := fill_front lenLeft (List.length_singleton)
    obtain ⟨later,payloadFilled,left⟩ := fill_front kindLeft rfl
    refine ⟨later,?_,left⟩
    simp only [Rust.readFrame,lenFilled,be32_length,decoded,if_neg good,kindFilled,Nat.add_sub_cancel,payloadFilled]
    simp

theorem go_reads : Reads Go.readFrame := by
  refine ⟨?_,?_⟩
  · intro r empty
    obtain ⟨later,filled⟩ := fill_end 4 empty
    simp [Go.readFrame,filled]
  · intro r f rest small whole
    obtain ⟨good,decoded⟩ := length_ok small
    have split : content r = be32 (f.payload.length + 1) ++ ((f.kind::f.payload) ++ rest) := by simpa [wire] using whole
    obtain ⟨afterLen,lenFilled,lenLeft⟩ := fill_front split (be32_length _)
    obtain ⟨later,bufFilled,left⟩ := fill_front lenLeft List.length_cons
    refine ⟨later,?_,left⟩
    have some : be32 (f.payload.length + 1) ≠ [] := by simp [be32]
    simp only [Go.readFrame,lenFilled,if_neg some,be32_length,decoded,if_neg good,bufFilled]
    simp

theorem frame_codecs_agree (frames : List Frame) (r : Source UInt8) (more : Nat) :
    (content r = writeFrames Rust.writeFrame frames →
      readFrames Go.readFrame ((frames.filter fits).length + 1 + more) r = (frames.filter fits,.clean)) ∧
    (content r = writeFrames Go.writeFrame frames →
      readFrames Rust.readFrame ((frames.filter fits).length + 1 + more) r = (frames.filter fits,.clean)) ∧
    (∀ stream f, fits f = false → Rust.writeFrame stream f.kind f.payload = .error .tooLarge ∧
      Go.writeFrame stream f.kind f.payload = .error .tooLarge) := by
  have small : ∀ f ∈ frames.filter fits, fits f = true := fun f member => (List.mem_filter.mp member).2
  refine ⟨?_,?_,?_⟩
  · intro whole
    rw [writeFrames_wire rust_writes] at whole
    exact readFrames_wire go_reads _ small whole more
  · intro whole
    rw [writeFrames_wire go_writes] at whole
    exact readFrames_wire rust_reads _ small whole more
  · intro stream f large
    have long : f.payload.length + 1 > maxFrameBytes := by simpa [fits] using large
    simp [Rust.writeFrame,Go.writeFrame,long]

theorem cut_stream_read : ∃ r : Source UInt8, r.length = 3 ∧
    readFrames Go.readFrame 3 r = ([⟨0,[123,125]⟩,⟨1,[]⟩],.clean) ∧ readFrames Rust.readFrame 3 r = ([⟨0,[123,125]⟩,⟨1,[]⟩],.clean) := by
  refine ⟨[⟨[0,0],by simp⟩,⟨[0,3,0,123,125,0,0],by simp⟩,⟨[0,1,1],by simp⟩],rfl,?_,?_⟩
  · exact (frame_codecs_agree [⟨0,[123,125]⟩,⟨1,[]⟩] _ 0).1 rfl
  · exact (frame_codecs_agree [⟨0,[123,125]⟩,⟨1,[]⟩] _ 0).2.1 rfl

end RemoteFileExplorer.SidecarFrames
