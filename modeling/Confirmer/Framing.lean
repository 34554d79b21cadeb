import Confirmer.Serialize
import Confirmer.Lib.Line

/-!
# Messages on a byte stream

The readers of `tcp_connection.cpp` and `tcp_client.cpp`. `async_read_until` completes once the
buffer holds a newline, or fails when the buffer is full; `onRead` then hands over the whole buffer.

* `Reader`, `TCPConnection.onRead`, `TCPClient.onRead`, `arrive`, `feed`: a reader and the segments
  that arrive at it; `Hop`: all that a stream brings to it.
* **`Reads`**, `reads_feed`: what a reader holds and has handed over.
* **`framing_iff`**: over both hops the posted strings arrive exactly when they fit the buffer and no
  segment at the client goes on behind a newline.
-/

namespace Confirmer

open Lines

/-! ## Readers -/

/-- `_streamBuf{65536}`. -/
def maxSize : ℕ := 65536

/-- A connection's buffer, whether its socket is open, and what its handler was given. -/
structure Reader where
  streamBuf : Bytes := []
  isOpen : Bool := true
  handed : List Bytes := []
  deriving DecidableEq

/-- `TCPConnection::onRead` on success: the stream extraction empties the buffer. -/
def TCPConnection.onRead (r : Reader) (_bytesTransferred : ℕ) : Reader :=
  { r with streamBuf := [], handed := r.handed ++ [r.streamBuf] }

/-- `TCPClient::onRead` on success; `consume` drops nothing from an empty buffer. -/
def TCPClient.onRead (r : Reader) (bytesTransferred : ℕ) : Reader :=
  let message := r.streamBuf
  let r := { r with streamBuf := [] }
  let r := { r with streamBuf := r.streamBuf.drop bytesTransferred }
  { r with handed := r.handed ++ [message] }

theorem TCPClient.onRead_eq : TCPClient.onRead = TCPConnection.onRead := by
  funext r n
  simp [TCPClient.onRead, TCPConnection.onRead]

/-- A segment arrives: one that is not empty and fits in the buffer, at an open socket. -/
def arrive (onRead : Reader → ℕ → Reader) (r : Reader) (segment : Bytes) : Option Reader :=
  if r.isOpen = true ∧ segment ≠ [] ∧ (r.streamBuf ++ segment).length ≤ maxSize then
    let r := { r with streamBuf := r.streamBuf ++ segment }
    if 10 ∈ r.streamBuf then some (onRead r (r.streamBuf.idxOf 10 + 1))
    else if r.streamBuf.length = maxSize then some { r with isOpen := false }
    else some r
  else none

def feed (onRead : Reader → ℕ → Reader) : Reader → List Bytes → Option Reader
  | r, [] => some r
  | r, segment :: segments => (arrive onRead r segment).bind fun r => feed onRead r segments

/-- **A hop**: the segments in which a stream arrived at a reader, all of it unless the socket was
closed. -/
structure Hop (onRead : Reader → ℕ → Reader) (stream : Bytes) (segments : List Bytes)
    (r : Reader) : Prop where
  run : feed onRead {} segments = some r
  part : segments.flatten <+: stream
  whole : r.isOpen = true → segments.flatten = stream

/-! ## What a reader hands over -/

/-- **The state of a reader** after the segments `cs`. -/
structure Reads (cs : List Bytes) (r : Reader) : Prop where
  content : r.handed.flatten ++ r.streamBuf = cs.flatten
  clean : (10 : UInt8) ∉ r.streamBuf
  fits : ∀ m ∈ r.handed, m.length ≤ maxSize
  full : r.isOpen = false → r.streamBuf.length = maxSize
  lines : (∀ m ∈ r.handed, Line 10 m) ↔ ∀ c ∈ cs, (10 : UInt8) ∉ c.dropLast

theorem reads_nil : Reads [] {} := by
  constructor <;> simp

theorem Reads.wait {cs : List Bytes} {r : Reader} {c : Bytes} {o : Bool} (h : Reads cs r)
    (hc : (10 : UInt8) ∉ c) (hfull : o = false → (r.streamBuf ++ c).length = maxSize) :
    Reads (cs ++ [c]) { r with streamBuf := r.streamBuf ++ c, isOpen := o } where
  content := by simp [← h.content]
  clean hm := (List.mem_append.mp hm).elim h.clean hc
  fits := h.fits
  full := hfull
  lines := by
    have hlast : (10 : UInt8) ∉ c.dropLast := fun hm => hc (List.mem_of_mem_dropLast hm)
    simp only [h.lines, List.mem_append, List.mem_singleton, or_imp, forall_and, forall_eq,
      hlast, not_false_eq_true, and_true]

theorem Reads.complete {cs : List Bytes} {r : Reader} {c : Bytes} (h : Reads cs r)
    (hc : (10 : UInt8) ∈ c) (hlen : (r.streamBuf ++ c).length ≤ maxSize) (hopen : r.isOpen = true) :
    Reads (cs ++ [c]) { r with streamBuf := [], handed := r.handed ++ [r.streamBuf ++ c] } where
  content := by simp [← h.content]
  clean := by simp
  fits m hm := by
    rcases List.mem_append.mp hm with hm | hm
    · exact h.fits m hm
    · rw [List.mem_singleton.mp hm]
      exact hlen
  full ho := absurd (hopen.symm.trans ho) (by simp)
  lines := by
    have hline := line_append_iff h.clean hc
    simp only [List.mem_append, List.mem_singleton, or_imp, forall_and, forall_eq, h.lines, hline]

theorem Reads.arrive {cs : List Bytes} {r r' : Reader} {c : Bytes} (h : Reads cs r)
    (ha : arrive TCPConnection.onRead r c = some r') : Reads (cs ++ [c]) r' := by
  unfold Confirmer.arrive at ha
  dsimp only at ha
  split_ifs at ha with hok hnew hfull
  · cases ha
    exact h.complete ((List.mem_append.mp hnew).resolve_left h.clean) hok.2.2 hok.1
  · cases ha
    exact h.wait (fun hc => hnew (List.mem_append_right _ hc)) fun _ => hfull
  · cases ha
    exact h.wait (fun hc => hnew (List.mem_append_right _ hc)) fun ho =>
      absurd (hok.1.symm.trans ho) (by simp)

theorem reads_feed {cs cs' : List Bytes} {r r' : Reader} (h : Reads cs r)
    (hf : feed TCPConnection.onRead r cs' = some r') : Reads (cs ++ cs') r' := by
  induction cs' generalizing cs r with
  | nil =>
    cases hf
    rwa [List.append_nil]
  | cons c cs' ih =>
    obtain ⟨r₁, h₁, h₂⟩ := Option.bind_eq_some_iff.mp hf
    have := ih (h.arrive h₁) h₂
    rwa [List.append_assoc] at this

theorem Hop.reads {stream : Bytes} {cs : List Bytes} {r : Reader}
    (h : Hop TCPConnection.onRead stream cs r) : Reads cs r := reads_feed reads_nil h.run

section

variable {msgs : List Bytes} {cs : List Bytes} {r : Reader}

/-- **No reader fails on lines that fit its buffer.** -/
theorem Hop.isOpen (h : Hop TCPConnection.onRead msgs.flatten cs r) (hm : ∀ m ∈ msgs, Line 10 m)
    (hlen : ∀ m ∈ msgs, m.length ≤ maxSize) : r.isOpen = true := by
  by_contra hopen
  have hr := h.reads
  obtain ⟨q, hq⟩ := h.part
  rw [← hr.content, List.append_assoc] at hq
  have hlt := length_lt_of_flatten hm (by decide) hlen hq.symm hr.clean
  have hfull := hr.full (by simpa using hopen)
  omega

theorem Hop.flatten (h : Hop TCPConnection.onRead msgs.flatten cs r) (hm : ∀ m ∈ msgs, Line 10 m)
    (hlen : ∀ m ∈ msgs, m.length ≤ maxSize) : r.handed.flatten = msgs.flatten := by
  have hr := h.reads
  have hcontent := hr.content
  rw [h.whole (h.isOpen hm hlen)] at hcontent
  rw [← hcontent, eq_nil_of_flatten hm hcontent.symm hr.clean, List.append_nil]

/-- **Framing.** The client is handed exactly the posted strings if and only if each of them fits
its buffer and no segment that arrives at the client goes on behind a newline. -/
theorem framing_iff {cs' : List Bytes} {r' : Reader} (hm : ∀ m ∈ msgs, Line 10 m)
    (h : Hop TCPConnection.onRead msgs.flatten cs r)
    (h' : Hop TCPClient.onRead r.handed.flatten cs' r') :
    r'.handed = msgs ↔
      (∀ m ∈ msgs, m.length ≤ maxSize) ∧ ∀ c ∈ cs', (10 : UInt8) ∉ c.dropLast := by
  rw [TCPClient.onRead_eq] at h'
  constructor
  · rintro rfl
    exact ⟨h'.reads.fits, h'.reads.lines.mp hm⟩
  · rintro ⟨hlen, hcs⟩
    rw [h.flatten hm hlen] at h'
    exact flatten_inj (h'.reads.lines.mpr hcs) hm (h'.flatten hm hlen)

end

/-- Two posted strings. -/
def twoLines : List Bytes := [[97, 10], [98, 10]]

theorem line_twoLines : ∀ m ∈ twoLines, Line (10 : UInt8) m := by
  intro m hm
  simp only [twoLines, List.mem_cons, List.not_mem_nil, or_false] at hm
  rcases hm with rfl | rfl
  · exact ⟨[97], by decide, rfl⟩
  · exact ⟨[98], by decide, rfl⟩

theorem hop_server : Hop TCPConnection.onRead twoLines.flatten [[97, 10, 98, 10]]
    { handed := [[97, 10, 98, 10]] } where
  run := by decide
  part := List.prefix_rfl
  whole _ := rfl

theorem hop_client_cut : Hop TCPClient.onRead [97, 10, 98, 10] [[97], [10], [98, 10]]
    { handed := twoLines } where
  run := by decide
  part := List.prefix_rfl
  whole _ := rfl

theorem framing_iff_cut : ({ handed := twoLines } : Reader).handed = twoLines :=
  (framing_iff line_twoLines hop_server hop_client_cut).mpr ⟨by decide, by decide⟩

/-- At the client both strings arrive in one segment. -/
theorem hop_client_merged : Hop TCPClient.onRead [97, 10, 98, 10] [[97, 10, 98, 10]]
    { handed := [[97, 10, 98, 10]] } where
  run := by decide
  part := List.prefix_rfl
  whole _ := rfl

/-- **Two strings in one segment are handed over as one.** -/
theorem framing_merged : (∀ m ∈ twoLines, Line (10 : UInt8) m) ∧
    ∃ r r', Hop TCPConnection.onRead twoLines.flatten twoLines r ∧ r.handed = twoLines ∧
      Hop TCPClient.onRead r.handed.flatten [[97, 10, 98, 10]] r' ∧ r'.handed ≠ twoLines :=
  ⟨line_twoLines, { handed := twoLines }, _, ⟨by decide, List.prefix_rfl, fun _ => rfl⟩, rfl,
    hop_client_merged, by decide⟩

end Confirmer
