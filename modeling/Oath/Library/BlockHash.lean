import Mathlib.Data.List.Basic

/-! Hashes that take a text block by block, padded at its end. A text that comes in chunks leaves
the same digest: what does not fill a block waits in a buffer. -/

/-- The compression of one block, with the padding for a text of a length. -/
structure BlockHash where
  Chain : Type
  blockSize : ℕ
  blockSize_pos : 0 < blockSize
  initial : Chain
  compress : Chain → List UInt8 → Chain
  padding : ℕ → List UInt8
  output : Chain → List UInt8

namespace BlockHash
variable (h : BlockHash)

/-- The whole blocks of a text are compressed, and the rest is left. -/
def absorb (chain : h.Chain) (text : List UInt8) : h.Chain × List UInt8 :=
  if text.length < h.blockSize then (chain, text)
  else absorb (h.compress chain (text.take h.blockSize)) (text.drop h.blockSize)
termination_by text.length
decreasing_by
  have hpos := h.blockSize_pos
  rw [List.length_drop]
  omega

theorem absorb_append (chain : h.Chain) (front rest : List UInt8) :
    h.absorb chain (front ++ rest) =
      h.absorb (h.absorb chain front).1 ((h.absorb chain front).2 ++ rest) := by
  induction chain, front using absorb.induct h with
  | case1 chain front hshort => rw [absorb.eq_def h chain front, if_pos hshort]
  | case2 chain front hlong ih =>
    have hle : h.blockSize ≤ front.length := Nat.not_lt.mp hlong
    have hboth : ¬(front ++ rest).length < h.blockSize := by
      rw [List.length_append]
      omega
    rw [absorb.eq_def h chain front, if_neg hlong, absorb.eq_def h chain (front ++ rest),
      if_neg hboth, List.take_append_of_le_length hle, List.drop_append_of_le_length hle]
    exact ih

/-- The digest of a text that is there at once. -/
def digest (text : List UInt8) : List UInt8 :=
  h.output (h.absorb h.initial (text ++ h.padding text.length)).1

/-! ## Chunks -/

/-- The chain of the blocks so far, what does not fill a block and the number of bytes. -/
structure Stream where
  chain : h.Chain
  buffer : List UInt8
  length : ℕ

def start : h.Stream := ⟨h.initial, [], 0⟩

variable {h}

def Stream.update (s : h.Stream) (chunk : List UInt8) : h.Stream where
  chain := (h.absorb s.chain (s.buffer ++ chunk)).1
  buffer := (h.absorb s.chain (s.buffer ++ chunk)).2
  length := s.length + chunk.length

def Stream.finalize (s : h.Stream) : List UInt8 :=
  h.output (h.absorb s.chain (s.buffer ++ h.padding s.length)).1

/-- The stream has taken a text. -/
def Stream.Took (s : h.Stream) (text : List UInt8) : Prop :=
  h.absorb h.initial text = (s.chain, s.buffer) ∧ s.length = text.length

theorem start_took : h.start.Took [] := by
  have hempty : ([] : List UInt8).length < h.blockSize := h.blockSize_pos
  refine ⟨?_, rfl⟩
  rw [absorb.eq_def, if_pos hempty]
  rfl

theorem Stream.Took.update {s : h.Stream} {text : List UInt8} (htook : s.Took text)
    (chunk : List UInt8) : (s.update chunk).Took (text ++ chunk) := by
  refine ⟨?_, ?_⟩
  · rw [absorb_append, htook.1]
    rfl
  · rw [List.length_append, ← htook.2]
    rfl

theorem Stream.Took.updates {s : h.Stream} {text : List UInt8} (htook : s.Took text)
    (chunks : List (List UInt8)) :
    (chunks.foldl Stream.update s).Took (text ++ chunks.flatten) := by
  induction chunks generalizing s text with
  | nil => rwa [List.flatten_nil, List.append_nil]
  | cons chunk rest ih =>
    rw [List.flatten_cons, ← List.append_assoc]
    exact ih (htook.update chunk)

theorem Stream.Took.finalize {s : h.Stream} {text : List UInt8} (htook : s.Took text) :
    s.finalize = h.digest text := by
  rw [digest, absorb_append, htook.1, ← htook.2]
  rfl

/-- The digest does not depend on the chunks. -/
theorem finalize_updates (chunks : List (List UInt8)) :
    (chunks.foldl Stream.update h.start).finalize = h.digest chunks.flatten :=
  (start_took.updates chunks).finalize

end BlockHash
