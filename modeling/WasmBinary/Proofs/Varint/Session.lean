import WasmBinary.Proofs.Varint.Window
import WasmBinary.Varint.Writer

/-! Windows that are watched while they are read.

A `Watched` window is the machine behind a `Varint`: a buffer and two positions, of which nothing is
known. It fails where a position is used that lies outside the buffer, and it notes each byte in the
moment in which it is read. A session starts with one window on an encoding, copies windows as it
likes and takes steps with each of them. No step of it fails, and at any point what a window has given
and what is still to come are the whole encoding (`each_byte_given_once`). -/
namespace WasmBinary.Varint

/-! ### The machine -/

/-- A buffer with two positions in it, and the bytes that were read from it so far. -/
structure Watched where
  buffer : Vector UInt8 maxLength
  start : Nat
  stop : Nat
  given : List UInt8

namespace Watched

/-- The next byte, none at the end. Fails when that byte lies outside the buffer. -/
def next? (w : Watched) : Option (Option UInt8 × Watched) :=
  if w.start < w.stop then
    match w.buffer[w.start]? with
    | none => none
    | some b => some (some b, { w with start := w.start + 1, given := w.given ++ [b] })
  else some (none, w)

/-- The bytes between the positions. Fails unless these are in order and inside the buffer. -/
def slice? (w : Watched) : Option (List UInt8) :=
  if w.start ≤ w.stop ∧ w.stop ≤ maxLength then some ((w.buffer.toList.take w.stop).drop w.start)
  else none

/-- How many bytes are to come. -/
def left (w : Watched) : Nat := w.stop - w.start

/-- Skips `k` bytes and reads the next one, unless the end comes first. -/
def nth? (w : Watched) : Nat → Option (Option UInt8 × Watched)
  | 0 => w.next?
  | k + 1 =>
    match w.next? with
    | none => none
    | some (none, w) => some (none, w)
    | some (some _, w) => w.nth? k

/-- Reads `k` bytes, unless the end comes first. -/
def take? (w : Watched) : Nat → Option (List UInt8 × Watched)
  | 0 => some ([], w)
  | k + 1 =>
    match w.next? with
    | none => none
    | some (none, w) => some ([], w)
    | some (some b, w) => (w.take? k).map fun (bytes, w) => (b :: bytes, w)

theorem left_of_next? {w u : Watched} {b : UInt8} (read : w.next? = some (some b, u)) : u.left < w.left := by
  unfold next? at read
  split at read
  · split at read
    · cases read
    · cases read
      simp [left]
      omega
  · cases read

/-- Reads on to the end. -/
def drain? (w : Watched) : Option (List UInt8 × Watched) :=
  match _read : w.next? with
  | none => none
  | some (none, w) => some ([], w)
  | some (some b, w) => (w.drain?).map fun (bytes, w) => (b :: bytes, w)
termination_by w.left
decreasing_by exact left_of_next? _read

/-- A step of the machine. -/
def perform? (w : Watched) : Step → Option (Answer × Watched)
  | .next => w.next?.map fun (b, w) => (.byte b, w)
  | .nth k => (w.nth? k).map fun (b, w) => (.byte b, w)
  | .take k => (w.take? k).map fun (bytes, w) => (.bytes bytes, w)
  | .sum => w.drain?.map fun (bytes, w) => (.number (bytes.foldr (fun b total => b.toNat + total) 0), w)
  | .slice => w.slice?.map fun bytes => (.bytes bytes, w)
  | .length => some (.number w.left, w)
  | .sizeHint => some (.bounds w.left (some w.left), w)
  | .tree => w.drain?.map fun (bytes, _) => (.tree (.ofBytes bytes), w)

end Watched

/-- A window as the machine sees it, with what it has given. -/
def watch (v : Varint) (given : List UInt8) : Watched := ⟨v.buffer, v.start, v.stop, given⟩

/-! ### The machine does what the window does -/

theorem next?_watch (v : Varint) (given : List UInt8) :
    (watch v given).next? = match v.next? with
      | none => some (none, watch v given)
      | some (b, rest) => some (some b, watch rest (given ++ [b])) := by
  unfold Watched.next? next? watch
  by_cases more : v.start < v.stop
  · have inside : v.start < maxLength := Nat.lt_of_lt_of_le more v.stop_le
    simp [more, inside]
  · simp [more]

theorem slice?_watch (v : Varint) (given : List UInt8) : (watch v given).slice? = some v.toList :=
  if_pos ⟨v.start_le_stop, v.stop_le⟩

theorem nth?_watch (v : Varint) (given : List UInt8) (k : Nat) :
    (watch v given).nth? k = some ((v.nth k).1, watch (v.nth k).2 (given ++ v.toList.take (k + 1))) := by
  induction k generalizing v given with
  | zero =>
    obtain ⟨bytes, read⟩ | ⟨b, rest, bytes, read⟩ := v.next?_cases <;>
      simp [Watched.nth?, next?_watch, nth_zero, bytes, read]
  | succ k ih =>
    obtain ⟨bytes, read⟩ | ⟨b, rest, bytes, read⟩ := v.next?_cases <;>
      simp [Watched.nth?, next?_watch, nth_succ, bytes, read, ih]

theorem take?_watch (v : Varint) (given : List UInt8) (k : Nat) :
    (watch v given).take? k = some ((v.take k).1, watch (v.take k).2 (given ++ v.toList.take k)) := by
  induction k generalizing v given with
  | zero => simp [Watched.take?, take]
  | succ k ih =>
    obtain ⟨bytes, read⟩ | ⟨b, rest, bytes, read⟩ := v.next?_cases <;>
      simp [Watched.take?, next?_watch, take, bytes, read, ih]

theorem Watched.drain?_end {w u : Watched} (read : w.next? = some (none, u)) : w.drain? = some ([], u) := by
  rw [drain?]
  split <;> simp_all

theorem Watched.drain?_byte {w u : Watched} {b : UInt8} (read : w.next? = some (some b, u)) :
    w.drain? = u.drain?.map fun (bytes, w) => (b :: bytes, w) := by
  rw [drain?]
  split <;> simp_all

theorem drain?_watch (v : Varint) (given : List UInt8) :
    (watch v given).drain? = some (v.toList, watch (v.take v.length).2 (given ++ v.toList)) := by
  rw [← length_toList]
  generalize whole : v.toList = bytes
  induction bytes generalizing v given with
  | nil =>
    have read := v.next?_eq_none_iff.2 whole
    have ends : (watch v given).next? = some (none, watch v given) := by simp [next?_watch, read]
    simp [Watched.drain?_end ends, take]
  | cons b bytes ih =>
    obtain ⟨ended, -⟩ | ⟨b', rest, first, read⟩ := v.next?_cases
    · simp [ended] at whole
    · obtain ⟨rfl, tail⟩ := List.cons.inj (first.symm.trans whole)
      have more : (watch v given).next? = some (some b', watch rest (given ++ [b'])) := by
        simp [next?_watch, read]
      rw [Watched.drain?_byte more, ih rest _ tail]
      simp [take, read]

/-- **Each step of the machine is the step of the window.** It does not fail, it answers the same, and it
leaves the window that is left. What it notes as given is taken off the front of the bytes to come. -/
theorem perform?_watch (v : Varint) (given : List UInt8) (s : Step) :
    ∃ taken, (watch v given).perform? s = some ((v.perform s).1, watch (v.perform s).2 (given ++ taken)) ∧
      taken ++ (v.perform s).2.toList = v.toList := by
  cases s with
  | next =>
    obtain ⟨bytes, read⟩ | ⟨b, rest, bytes, read⟩ := v.next?_cases
    · exact ⟨[], by simp [Watched.perform?, perform, next?_watch, read], by simp [perform, read]⟩
    · exact ⟨[b], by simp [Watched.perform?, perform, next?_watch, read], by simp [perform, read, bytes]⟩
  | nth k =>
    refine ⟨v.toList.take (k + 1), ?_, ?_⟩
    · simp [Watched.perform?, perform, nth?_watch]
    · simp [perform, nth_onList]
  | take k =>
    refine ⟨v.toList.take k, ?_, ?_⟩
    · simp [Watched.perform?, perform, take?_watch]
    · simp [perform, take_onList]
  | sum =>
    refine ⟨v.toList, ?_, ?_⟩
    · simp [Watched.perform?, perform, drain?_watch, sum, take_length]
    · simp [perform, sum, take_length]
  | slice => exact ⟨[], by simp [Watched.perform?, perform, slice?_watch], rfl⟩
  | length => exact ⟨[], by simp [Watched.perform?, perform, watch, Watched.left, length], rfl⟩
  | sizeHint => exact ⟨[], by simp [Watched.perform?, perform, watch, Watched.left, sizeHint, length], rfl⟩
  | tree => exact ⟨[], by simp [Watched.perform?, perform, drain?_watch, take_length], rfl⟩

/-! ### Sessions -/

/-- What can be done with several windows. -/
inductive Action where
  /-- One more window, as far as the one at this place. -/
  | clone (i : Nat)
  /-- A step of the window at this place. -/
  | step (i : Nat) (s : Step)

/-- Carries out an action; where there is no window at the place, nothing happens. -/
def obey? (pool : List Watched) : Action → Option (List Watched)
  | .clone i => some (pool ++ pool[i]?.toList)
  | .step i s =>
    match pool[i]? with
    | none => some pool
    | some w => (w.perform? s).map fun (_, left) => pool.set i left

/-- Carries out actions one after the other. -/
def run? (pool : List Watched) : List Action → Option (List Watched)
  | [] => some pool
  | action :: rest => (obey? pool action).bind fun pool => run? pool rest

/-- The window stands in these bytes: in front of it is what it has given, behind it what is to come. -/
def Within (whole : List UInt8) (w : Watched) : Prop :=
  ∃ v : Varint, w = watch v w.given ∧ w.given ++ v.toList = whole

theorem Within.perform? {whole : List UInt8} {w : Watched} (h : Within whole w) (s : Step) :
    ∃ answer u, w.perform? s = some (answer, u) ∧ Within whole u := by
  obtain ⟨v, seen, split⟩ := h
  obtain ⟨taken, performed, rest⟩ := perform?_watch v w.given s
  rw [← seen] at performed
  refine ⟨_, _, performed, (v.perform s).2, rfl, ?_⟩
  show w.given ++ taken ++ (v.perform s).2.toList = whole
  rw [List.append_assoc, rest, split]

theorem obey?_within {whole : List UInt8} {pool : List Watched} (h : ∀ w ∈ pool, Within whole w)
    (action : Action) : ∃ later, obey? pool action = some later ∧ ∀ w ∈ later, Within whole w := by
  cases action with
  | clone i =>
    refine ⟨_, rfl, fun w mem => ?_⟩
    obtain old | copied := List.mem_append.1 mem
    · exact h w old
    · exact h w (List.mem_of_getElem? (Option.mem_toList.1 copied))
  | step i s =>
    cases found : pool[i]? with
    | none => exact ⟨pool, by simp [obey?, found], h⟩
    | some w =>
      obtain ⟨answer, u, performed, inside⟩ := (h w (List.mem_of_getElem? found)).perform? s
      refine ⟨pool.set i u, by simp [obey?, found, performed], fun x mem => ?_⟩
      obtain old | new := List.mem_or_eq_of_mem_set mem
      · exact h x old
      · exact new ▸ inside

/-- No session fails, and every window in it stands in the same bytes. -/
theorem run?_within {whole : List UInt8} {pool : List Watched} (h : ∀ w ∈ pool, Within whole w)
    (actions : List Action) : ∃ later, run? pool actions = some later ∧ ∀ w ∈ later, Within whole w := by
  induction actions generalizing pool with
  | nil => exact ⟨pool, rfl, h⟩
  | cons action rest ih =>
    obtain ⟨next, obeyed, inside⟩ := obey?_within h action
    obtain ⟨later, run, inside⟩ := ih inside
    exact ⟨later, by simp [run?, obeyed, run], inside⟩

/-! ### What leaves a window alone -/

/-- A window is as before when the action is no step of it, or a step that leaves it as it is. -/
theorem obey?_keeps {pool later : List Watched} {action : Action} {i : Nat} {w : Watched}
    (obeyed : obey? pool action = some later) (found : pool[i]? = some w)
    (still : ∀ s, action = .step i s → ∃ answer, w.perform? s = some (answer, w)) : later[i]? = some w := by
  have inside : i < pool.length := (List.getElem?_eq_some_iff.1 found).1
  cases action with
  | clone j =>
    cases obeyed
    rwa [List.getElem?_append_left inside]
  | step j s =>
    by_cases same : j = i
    · subst same
      obtain ⟨answer, performed⟩ := still s rfl
      simp [obey?, found, performed] at obeyed
      rw [← obeyed, List.getElem?_set_self inside]
    · simp only [obey?] at obeyed
      split at obeyed
      · cases obeyed
        exact found
      · obtain ⟨⟨answer, u⟩, -, set⟩ := Option.map_eq_some_iff.1 obeyed
        rw [← set, List.getElem?_set_ne same, found]

theorem run?_keeps {pool later : List Watched} {actions : List Action} {i : Nat} {w : Watched}
    (run : run? pool actions = some later) (found : pool[i]? = some w)
    (still : ∀ s, .step i s ∈ actions → ∃ answer, w.perform? s = some (answer, w)) : later[i]? = some w := by
  induction actions generalizing pool with
  | nil =>
    cases run
    exact found
  | cons action rest ih =>
    obtain ⟨next, obeyed, run⟩ := Option.bind_eq_some_iff.1 run
    have kept := obey?_keeps obeyed found fun s same => still s (same ▸ List.mem_cons_self)
    exact ih run kept fun s mem => still s (List.mem_cons_of_mem action mem)

/-- At its end a window stays as it is, whatever is done with it. -/
theorem perform?_ended {v : Varint} {given : List UInt8} (ended : v.toList = []) (s : Step) :
    ∃ answer, (watch v given).perform? s = some (answer, watch v given) := by
  obtain ⟨taken, performed, rest⟩ := perform?_watch v given s
  rw [perform_exhausted ended] at performed rest
  rw [ended, List.append_nil] at rest
  rw [rest, List.append_nil] at performed
  exact ⟨_, performed⟩

/-! ### Sessions on an encoding -/

/-- The encoding of a word, signed or unsigned. -/
def ofWord : Int64 ⊕ UInt64 → Varint
  | .inl n => ofInt64 n
  | .inr n => ofUInt64 n

/-- **A window gives each byte of an encoding once, in order, whatever is done with it.** In a session
that starts with one window on the encoding of a word and copies it at will, no step reads outside the
buffer, and for each window what it has given and what is to come are the encoding. A window is as
before when nothing was done but to others, its copies among them, and for good when it is at its end.
Each step is the one of the running window, and that answers like the list of the bytes to come. -/
theorem each_byte_given_once :
    (∀ (n : Int64 ⊕ UInt64) (actions : List Action), ∃ pool,
      run? [watch (ofWord n) []] actions = some pool ∧
      (∀ w ∈ pool, ∃ v : Varint, w = watch v w.given ∧ w.given ++ v.toList = (ofWord n).toList) ∧
      ∀ (i : Nat) (v : Varint) (given : List UInt8) (more : List Action), pool[i]? = some (watch v given) →
        (∀ s, .step i s ∉ more) ∨ v.toList = [] →
          ∃ later, run? pool more = some later ∧ later[i]? = some (watch v given)) ∧
    (∀ (v : Varint) (given : List UInt8) (s : Step),
      (∃ taken, (watch v given).perform? s = some ((v.perform s).1, watch (v.perform s).2 (given ++ taken)) ∧
        taken ++ (v.perform s).2.toList = v.toList) ∧
      (v.perform s).1 = (s.onList v.toList).1 ∧ (v.perform s).2.toList = (s.onList v.toList).2) := by
  refine ⟨fun n actions => ?_, fun v given s => ⟨perform?_watch v given s, v.perform_onList s⟩⟩
  have start : ∀ w ∈ [watch (ofWord n) []], Within (ofWord n).toList w := by
    intro w mem
    rw [List.mem_singleton.1 mem]
    exact ⟨ofWord n, rfl, rfl⟩
  obtain ⟨pool, run, inside⟩ := run?_within start actions
  refine ⟨pool, run, inside, fun i v given more found alone => ?_⟩
  obtain ⟨later, goesOn, -⟩ := run?_within inside more
  refine ⟨later, goesOn, run?_keeps goesOn found fun s mem => ?_⟩
  obtain untouched | ended := alone
  · exact absurd mem (untouched s)
  · exact perform?_ended ended s

theorem each_byte_given_once_copied :
    let v := ofWord (.inl 624485)
    (∃ later, run? [watch v [], watch v []] [.step 1 (.nth 9), .clone 1, .step 1 .next] = some later ∧
      later[0]? = some (watch v [])) ∧
    ∃ later, run? [watch v.sum.2 v.toList] [.step 0 .next, .clone 0, .step 0 .sum] = some later ∧
      later[0]? = some (watch v.sum.2 v.toList) := by
  intro v
  constructor
  · obtain ⟨pool, run, -, kept⟩ := each_byte_given_once.1 (.inl 624485) [.clone 0]
    cases run
    exact kept 0 v [] _ rfl (.inl (by simp))
  · obtain ⟨pool, run, -, kept⟩ := each_byte_given_once.1 (.inl 624485) [.step 0 .sum]
    have swept : run? [watch v []] [.step 0 .sum] = some [watch v.sum.2 v.toList] := by
      simp [run?, obey?, Watched.perform?, drain?_watch, sum]
    obtain rfl := Option.some.inj (swept.symm.trans run)
    exact kept 0 v.sum.2 v.toList _ rfl (.inr (take_length v).2)

end WasmBinary.Varint
