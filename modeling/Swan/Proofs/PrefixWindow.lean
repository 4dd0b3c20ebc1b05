import Swan.Cpu.PrefixQueue

/-! The queue after many pushes. It holds a window of the bytes pushed: the last sixteen
of them, in order. -/
namespace Swan.PrefixQueue

def pushAll (q : PrefixQueue) (l : List Byte) : PrefixQueue := l.foldl push q

@[simp] theorem pushAll_nil (q : PrefixQueue) : q.pushAll [] = q := rfl

@[simp] theorem pushAll_cons (q : PrefixQueue) (b : Byte) (l : List Byte) :
    q.pushAll (b :: l) = (q.push b).pushAll l := rfl

theorem pushAll_append (q : PrefixQueue) (front back : List Byte) :
    q.pushAll (front ++ back) = (q.pushAll front).pushAll back := List.foldl_append

theorem bytes_push (q : PrefixQueue) (b : Byte) :
    (q.push b).bytes = (q.bytes ++ [b]).drop ((q.bytes ++ [b]).length - 16) := by
  have bound := q.length_le
  simp only [push, List.length_append, List.length_singleton]
  split
  · rw [show q.bytes.length + 1 - 16 = 0 by omega, List.drop_zero]
  · rw [show q.bytes.length + 1 - 16 = 1 by omega, List.drop_one, List.tail_append_of_ne_nil]
    exact List.ne_nil_of_length_pos (by omega)

theorem bytes_pushAll (q : PrefixQueue) (l : List Byte) :
    (q.pushAll l).bytes = (q.bytes ++ l).drop ((q.bytes ++ l).length - 16) := by
  induction l generalizing q with
  | nil =>
    have bound := q.length_le
    rw [pushAll_nil, List.append_nil, Nat.sub_eq_zero_of_le bound, List.drop_zero]
  | cons b l ih =>
    have bound := q.length_le
    have inner : (q.push b).bytes ++ l =
        (q.bytes ++ b :: l).drop ((q.bytes ++ [b]).length - 16) := by
      rw [bytes_push, ← List.drop_append_of_le_length (Nat.sub_le _ _), List.append_assoc,
        List.singleton_append]
    rw [pushAll_cons, ih, inner, List.drop_drop]
    congr 1
    simp only [List.length_drop, List.length_append, List.length_cons, List.length_nil]
    omega

theorem length_pushAll (q : PrefixQueue) (l : List Byte) :
    (q.pushAll l).length = min 16 (q.length + l.length) := by
  simp only [length, bytes_pushAll, List.length_drop, List.length_append]
  omega

theorem bytes_pushAll_empty (l : List Byte) :
    (empty.pushAll l).bytes = l.drop (l.length - 16) := bytes_pushAll empty l

theorem pushAll_empty_bytes (q : PrefixQueue) : empty.pushAll q.bytes = q := by
  ext1
  rw [bytes_pushAll_empty, Nat.sub_eq_zero_of_le q.length_le, List.drop_zero]

/-- A byte in front is the first to go. -/
theorem pushAll_empty_cons_of_full {b : Byte} {l : List Byte} (full : 16 ≤ l.length) :
    empty.pushAll (b :: l) = empty.pushAll l := by
  ext1
  rw [bytes_pushAll_empty, bytes_pushAll_empty, List.length_cons,
    show l.length + 1 - 16 = l.length - 16 + 1 by omega, List.drop_succ_cons]

theorem bytes_pushAll_empty_cons {b : Byte} {l : List Byte} (room : l.length < 16) :
    (empty.pushAll (b :: l)).bytes = b :: (empty.pushAll l).bytes := by
  rw [bytes_pushAll_empty, bytes_pushAll_empty, List.length_cons, Nat.sub_eq_zero_of_le room,
    Nat.sub_eq_zero_of_le (Nat.le_of_lt room), List.drop_zero, List.drop_zero]

/-- The latest byte of a kind counts, so one in front is overruled by any other. -/
theorem findSome?_pushAll_empty_cons {α : Type} {f : Byte → Option α} {b : Byte} {l : List Byte}
    (overruled : f b = none ∨ ∃ a ∈ l, (f a).isSome) :
    (empty.pushAll (b :: l)).bytes.reverse.findSome? f =
      (empty.pushAll l).bytes.reverse.findSome? f := by
  by_cases full : 16 ≤ l.length
  · rw [pushAll_empty_cons_of_full full]
  have room := Nat.lt_of_not_le full
  rw [bytes_pushAll_empty_cons room, List.reverse_cons, List.findSome?_append]
  have all : (empty.pushAll l).bytes = l := by
    rw [bytes_pushAll_empty, Nat.sub_eq_zero_of_le (Nat.le_of_lt room), List.drop_zero]
  rw [all]
  rcases overruled with idle | ⟨a, member, counts⟩
  · rw [List.findSome?_singleton, idle, Option.or_none]
  · have found : (l.reverse.findSome? f).isSome := by
      rw [List.findSome?_isSome_iff]
      exact ⟨a, List.mem_reverse.mpr member, counts⟩
    rw [Option.or_of_isSome found]

theorem mem_bytes_pushAll {q : PrefixQueue} {l : List Byte} {b : Byte}
    (h : b ∈ (q.pushAll l).bytes) : b ∈ q.bytes ∨ b ∈ l := by
  rw [bytes_pushAll] at h
  exact List.mem_append.mp (List.mem_of_mem_drop h)

theorem repeatClass_ne_none {q : PrefixQueue} (h : q.repeatClass ≠ none) :
    0xF2 ∈ q.bytes ∨ 0xF3 ∈ q.bytes := by
  obtain ⟨k, found⟩ := Option.ne_none_iff_exists'.mp h
  obtain ⟨b, member, class_⟩ := List.exists_of_findSome?_eq_some found
  rw [List.mem_reverse] at member
  unfold repeatOfPrefix? at class_
  split at class_
  · rename_i same
    exact .inr (same ▸ member)
  · split at class_
    · rename_i same
      exact .inl (same ▸ member)
    · contradiction

end Swan.PrefixQueue
