import Mathlib.Tactic

/-! Reading messages off a buffer that grows by chunks.
`next` reads one piece off the front of the buffer, which may hold a message, or waits for
more.  What has been delivered depends on the stream only, not on where it was cut. -/
namespace Batiste
namespace ChunkReader

variable {α β : Type}

/-- A piece that has been read is read the same whatever follows it. -/
structure Steady (next : List α → Option (Option β × List α)) : Prop where
  shrinks : ∀ b o rest, next b = some (o, rest) → rest.length < b.length
  stable : ∀ b o rest d, next b = some (o, rest) → next (b ++ d) = some (o, rest ++ d)

variable (next : List α → Option (Option β × List α))

/-- Read pieces off the front, at most so many: the messages, and what is left. -/
def drainUpTo : ℕ → List α → List β × List α
  | 0, b => ([], b)
  | n + 1, b =>
    match next b with
    | none => ([], b)
    | some (o, rest) => (o.toList ++ (drainUpTo n rest).1, (drainUpTo n rest).2)

/-- Read pieces off the front for as long as there are any. -/
def drain (b : List α) : List β × List α := drainUpTo next b.length b

/-- Add a chunk to the buffer and read. -/
def feed (s : List β × List α) (chunk : List α) : List β × List α :=
  (s.1 ++ (drain next (s.2 ++ chunk)).1, (drain next (s.2 ++ chunk)).2)

variable {next}

theorem drainUpTo_enough (h : Steady next) (n : ℕ) (b : List α) (hn : b.length ≤ n) :
    drainUpTo next n b = drain next b := by
  have hany : ∀ n m (b : List α), b.length ≤ n → b.length ≤ m →
      drainUpTo next n b = drainUpTo next m b := by
    intro n
    induction n with
    | zero =>
      intro m b hn _
      obtain rfl : b = [] := List.eq_nil_of_length_eq_zero (by omega)
      cases m with
      | zero => rfl
      | succ m =>
        cases hnext : next [] with
        | none => simp [drainUpTo, hnext]
        | some piece => exact absurd (h.shrinks [] _ _ hnext) (by simp)
    | succ n ih =>
      intro m b hn hm
      cases m with
      | zero =>
        obtain rfl : b = [] := List.eq_nil_of_length_eq_zero (by omega)
        cases hnext : next [] with
        | none => simp [drainUpTo, hnext]
        | some piece => exact absurd (h.shrinks [] _ _ hnext) (by simp)
      | succ m =>
        cases hnext : next b with
        | none => simp [drainUpTo, hnext]
        | some piece =>
          have hlt := h.shrinks b _ _ hnext
          simp only [drainUpTo, hnext, ih m piece.2 (by omega) (by omega)]
  exact hany n b.length b hn le_rfl

theorem drain_wait {b : List α} (hb : next b = none) : drain next b = ([], b) := by
  unfold drain
  cases b.length <;> simp [drainUpTo, hb]

theorem drain_piece (h : Steady next) {b rest : List α} {o : Option β}
    (hb : next b = some (o, rest)) :
    drain next b = (o.toList ++ (drain next rest).1, (drain next rest).2) := by
  have hlt := h.shrinks b o rest hb
  obtain ⟨n, hn⟩ : ∃ n, b.length = n + 1 := ⟨b.length - 1, by omega⟩
  rw [← drainUpTo_enough h b.length b le_rfl, hn]
  simp only [drainUpTo, hb, drainUpTo_enough h n rest (by omega)]

/-- What is left over has nothing more to read. -/
theorem drain_rest (h : Steady next) (b : List α) : next (drain next b).2 = none := by
  induction hb : b.length using Nat.strong_induction_on generalizing b with
  | _ n ih =>
    cases hnext : next b with
    | none => rw [drain_wait hnext, hnext]
    | some piece =>
      rw [drain_piece h hnext]
      exact ih piece.2.length (hb ▸ h.shrinks b _ _ hnext) piece.2 rfl

/-- Reading what is there first makes no difference to what is read with more behind it. -/
theorem drain_append (h : Steady next) (b d : List α) :
    drain next (b ++ d) = ((drain next b).1 ++ (drain next ((drain next b).2 ++ d)).1,
      (drain next ((drain next b).2 ++ d)).2) := by
  induction hb : b.length using Nat.strong_induction_on generalizing b with
  | _ n ih =>
    cases hnext : next b with
    | none => simp [drain_wait hnext]
    | some piece =>
      have hrest := ih piece.2.length (hb ▸ h.shrinks b _ _ hnext) piece.2 rfl
      rw [drain_piece h (h.stable b _ _ d hnext), drain_piece h hnext, hrest]
      simp

/-- The chunks deliver what their stream delivers in one piece. -/
theorem feed_chunks (h : Steady next) (chunks : List (List α)) (out : List β) {b : List α}
    (hb : next b = none) :
    chunks.foldl (feed next) (out, b) =
      (out ++ (drain next (b ++ chunks.flatten)).1, (drain next (b ++ chunks.flatten)).2) := by
  induction chunks generalizing out b with
  | nil => simp [drain_wait hb]
  | cons chunk chunks ih =>
    rw [List.foldl_cons, feed, ih _ (drain_rest h _), List.flatten_cons, ← List.append_assoc,
      drain_append h (b ++ chunk)]
    simp

/-- A stream of encodings that `next` reads back delivers the messages. -/
theorem drain_encoded (h : Steady next) {encode : β → List α} (messages : List β)
    (hread : ∀ m ∈ messages, ∀ d, next (encode m ++ d) = some (some m, d)) (d : List α) :
    drain next (messages.flatMap encode ++ d) =
      (messages ++ (drain next d).1, (drain next d).2) := by
  induction messages with
  | nil => simp
  | cons m messages ih =>
    have hhead := hread m List.mem_cons_self (messages.flatMap encode ++ d)
    rw [List.flatMap_cons, List.append_assoc, drain_piece h hhead,
      ih fun m' hm' => hread m' (List.mem_cons_of_mem m hm')]
    simp

end ChunkReader
end Batiste
