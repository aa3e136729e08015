/-
Messages on the socket.

A message is a line of JSON text. The reader takes what arrives, in whatever pieces, until a piece
has the end of the line or the stream is over, and reads the text before the end of the line. It
cannot tell a line that was cut off from a whole one except by its text; for an object no part of
the text is a text, so that a torn request is an error and never another request.
-/
import Memline.Lib.JsonWriting
import Mathlib.Data.List.Infix

set_option autoImplicit false

namespace Memline.Wire

open Py Py.JsonText

/-- What reading a message raises. -/
inductive Raised where
  | empty_request
  | unicode_decode_error
  | json (f : Fault)

/-- A connection: the pieces that `recv` will return before the stream is over, what was sent, and
whether the other side still takes what is sent. -/
structure Socket where
  incoming : List (List UInt8)
  sent : List UInt8
  alive : Bool

def newline : UInt8 := 10

/-- `text.encode()`. -/
def encode (text : List Char) : List UInt8 := text.flatMap String.utf8EncodeChar

/-- `raw.decode()`. -/
def decode (raw : List UInt8) : Option (List Char) := raw.toByteArray.utf8Decode?.map Array.toList

/-- The pieces up to the one with the end of the line, and those that stay. An empty piece is the
end of the stream. -/
def receive : List (List UInt8) → List (List UInt8) × List (List UInt8)
  | [] => ([], [])
  | chunk :: incoming =>
    if chunk = [] then ([], incoming)
    else if newline ∈ chunk then ([chunk], incoming)
    else (chunk :: (receive incoming).1, (receive incoming).2)

variable (L : Language) (p : Printer)

def read_json_line (conn : Socket) : Except Raised (Json × Socket) :=
  let chunks := (receive conn.incoming).1
  let conn := { conn with incoming := (receive conn.incoming).2 }
  -- up to the first newline; what was received behind it is dropped
  let raw := chunks.flatten.takeWhile (· ≠ newline)
  if raw = [] then .error .empty_request
  else
    match decode raw with
    | none => .error .unicode_decode_error
    | some text =>
      match json_loads L true text with
      | .error f => .error (.json f)
      | .ok payload => .ok (payload, conn)

/-- `write_json_line`: `False` where the other side is gone. -/
def write_json_line (conn : Socket) (payload : Json) : Except Fault (Bool × Socket) :=
  match json_dumps L .line p payload with
  | .error f => .error f
  | .ok text =>
    if conn.alive then .ok (true, { conn with sent := conn.sent ++ (encode text ++ [newline]) })
    else .ok (false, conn)

variable {L p}

/-! ## Bytes -/

theorem decode_encode (text : List Char) : decode (encode text) = some text := by
  have hbytes : (encode text).toByteArray = text.utf8Encode := rfl
  rw [decode, hbytes, List.utf8Decode?_utf8Encode, Option.map_some]

/-- In ASCII a character is a byte. -/
theorem encode_prints {text : List Char} (h : ∀ c ∈ text, Prints c) :
    encode text = text.map fun c => c.val.toUInt8 := by
  induction text with
  | nil => rfl
  | cons c text ih =>
    obtain ⟨hc, htext⟩ := List.forall_mem_cons.mp h
    have hsize : c.utf8Size = 1 := by
      rw [Char.utf8Size_eq_one_iff, UInt32.le_iff_toNat_le]
      exact Nat.le_of_lt_succ (hc.2.trans (by decide))
    rw [encode, List.flatMap_cons, String.utf8EncodeChar_eq_singleton hsize, List.map_cons]
    exact congrArg _ (ih htext)

/-- A printable text has no newline in its encoding. -/
theorem newline_notMem {text : List Char} (h : ∀ c ∈ text, Prints c) : newline ∉ encode text := by
  rw [encode_prints h]
  intro hmem
  obtain ⟨c, hc, hbyte⟩ := List.mem_map.mp hmem
  have hnat := congrArg UInt8.toNat hbyte
  have hprints := h c hc
  rw [UInt32.toNat_toUInt8] at hnat
  have hval : c.val.toNat = c.toNat := rfl
  unfold Prints at hprints
  change c.val.toNat % 2 ^ 8 = 10 at hnat
  omega

/-- Where a text in ASCII is cut, it is cut between characters. -/
theorem prefix_encode {text : List Char} (h : ∀ c ∈ text, Prints c) {raw : List UInt8}
    (hraw : raw <+: encode text) : ∃ u, u <+: text ∧ raw = encode u := by
  rw [encode_prints h] at hraw
  have htake := List.prefix_iff_eq_take.mp hraw
  refine ⟨text.take raw.length, List.take_prefix _ _, ?_⟩
  rw [encode_prints fun c hc => h c (List.mem_of_mem_take hc), List.map_take]
  exact htake

/-! ## Pieces -/

/-- However the stream is cut, the first line is the same. -/
theorem receive_line {chunks : List (List UInt8)} (h : ∀ chunk ∈ chunks, chunk ≠ []) :
    (receive chunks).1.flatten.takeWhile (· ≠ newline) =
      chunks.flatten.takeWhile (· ≠ newline) := by
  induction chunks with
  | nil => rfl
  | cons chunk chunks ih =>
    obtain ⟨hchunk, hchunks⟩ := List.forall_mem_cons.mp h
    rw [receive, if_neg hchunk]
    by_cases hline : newline ∈ chunk
    · rw [if_pos hline]
      have hshort : (chunk.takeWhile (· ≠ newline)).length ≠ chunk.length := by
        intro hlength
        have hall :=
          List.takeWhile_eq_self_iff.mp
            ((List.takeWhile_prefix _).eq_of_length hlength) newline hline
        simp at hall
      rw [List.flatten_cons, List.flatten_nil, List.append_nil, List.flatten_cons,
        List.takeWhile_append, if_neg hshort]
    · rw [if_neg hline]
      have hwhole : ∀ b ∈ chunk, decide (b ≠ newline) = true := by
        intro b hb
        rw [decide_eq_true_eq]
        rintro rfl
        exact hline hb
      rw [List.flatten_cons, List.flatten_cons, List.takeWhile_append_of_pos hwhole,
        List.takeWhile_append_of_pos hwhole, ih hchunks]

/-- What comes of a line, or of what arrived of it. -/
theorem read_json_line_eq {conn : Socket} (hpieces : ∀ chunk ∈ conn.incoming, chunk ≠ [])
    {text : List Char} (hne : text ≠ [])
    (hline : conn.incoming.flatten.takeWhile (· ≠ newline) = encode text) :
    read_json_line L conn =
      match json_loads L true text with
      | .error f => .error (.json f)
      | .ok payload => .ok (payload, { conn with incoming := (receive conn.incoming).2 }) := by
  have hraw : encode text ≠ [] := by
    intro hempty
    have hdecode := decode_encode text
    rw [hempty] at hdecode
    exact hne (Option.some.inj (hdecode.symm.trans rfl))
  simp only [read_json_line]
  rw [receive_line hpieces, hline, if_neg hraw, decode_encode]

/-- **Whole messages.** A message is read as it was written, however its line is cut into pieces and
whatever follows it; and a part of its text at the end of the stream is never read as a message. -/
theorem message_whole_or_refused {conn conn' : Socket} {payload : Dict}
    (hwrite : write_json_line L p conn (.obj payload) = .ok (true, conn'))
    (hfloats : FloatsRead L p (.obj payload)) (hkeys : Distinct (.obj payload)) :
    ∃ text, conn'.sent = conn.sent ++ (encode text ++ [newline]) ∧
      (∀ (peer : Socket) (more : List UInt8), (∀ chunk ∈ peer.incoming, chunk ≠ []) →
        peer.incoming.flatten = encode text ++ newline :: more →
          ∃ peer', read_json_line L peer = .ok (.obj payload, peer')) ∧
      ∀ peer : Socket, (∀ chunk ∈ peer.incoming, chunk ≠ []) →
        peer.incoming.flatten <+: encode text →
        peer.incoming.flatten ≠ encode text → ∃ e, read_json_line L peer = .error e := by
  unfold write_json_line at hwrite
  split at hwrite
  · cases hwrite
  · rename_i text htext
    split at hwrite
    · cases hwrite
      -- what is printed has no end of a line in it, and neither have its bytes
      have hprints : ∀ c ∈ text, Prints c := by
        obtain ⟨-, hints, rfl⟩ := json_dumps_ok htext
        exact write_confined line_confined _ hints hfloats 0
      have hplain : ∀ b ∈ encode text, decide (b ≠ newline) = true := by
        intro b hb
        rw [decide_eq_true_eq]
        rintro rfl
        exact newline_notMem hprints hb
      refine ⟨text, rfl, ?_, ?_⟩
      · intro peer more hpieces hstream
        have hline : peer.incoming.flatten.takeWhile (· ≠ newline) = encode text := by
          rw [hstream, List.takeWhile_append_of_pos hplain, List.takeWhile_cons_of_neg (by simp),
            List.append_nil]
        have hloads := loads_dumps htext hfloats hkeys true
        have hne : text ≠ [] := by
          rintro rfl
          cases hloads
        rw [read_json_line_eq hpieces hne hline, hloads]
        exact ⟨_, rfl⟩
      · intro peer hpieces hpart hcut
        obtain ⟨u, hu, hraw⟩ := prefix_encode hprints hpart
        have hline : peer.incoming.flatten.takeWhile (· ≠ newline) = encode u := by
          rw [List.takeWhile_eq_self_iff.mpr fun b hb => hplain b (hpart.subset hb), hraw]
        -- nothing came, or a part of the text
        by_cases hne : u = []
        · subst hne
          refine ⟨.empty_request, ?_⟩
          simp only [read_json_line]
          rw [receive_line hpieces, hline]
          exact if_pos rfl
        · have hut : u ≠ text := by
            rintro rfl
            exact hcut hraw
          rw [read_json_line_eq hpieces hne hline, loads_torn htext hfloats hkeys rfl hu hut true]
          exact ⟨_, rfl⟩
    · cases hwrite

/-- A request. -/
def example_request : Dict :=
  [("op", .str "add"), ("args", .obj [("text", .str "é\n"), ("limit", .int 7)])]

/-- A request with text beyond ASCII goes over the wire, and no part of it is taken for a whole. -/
theorem request_whole_or_refused :
    ∃ conn', write_json_line .plain .plain ⟨[], [], true⟩ (.obj example_request) =
      .ok (true, conn') ∧
      ∃ text, conn'.sent = [] ++ (encode text ++ [newline]) ∧
        (∀ (peer : Socket) (more : List UInt8), (∀ chunk ∈ peer.incoming, chunk ≠ []) →
          peer.incoming.flatten = encode text ++ newline :: more →
            ∃ peer', read_json_line .plain peer = .ok (.obj example_request, peer')) ∧
        ∀ peer : Socket, (∀ chunk ∈ peer.incoming, chunk ≠ []) →
          peer.incoming.flatten <+: encode text →
          peer.incoming.flatten ≠ encode text → ∃ e, read_json_line .plain peer = .error e :=
  ⟨_, rfl, message_whole_or_refused
    (rfl : write_json_line .plain .plain ⟨[], [], true⟩ (.obj example_request) = .ok (true, _))
    ⟨trivial, ⟨trivial, trivial, trivial⟩, trivial⟩ ⟨by decide, trivial,
      ⟨by decide, trivial, trivial, trivial⟩, trivial⟩⟩

end Memline.Wire
