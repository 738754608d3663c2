import QueryPlayback.Lib.Lines
import Mathlib.Data.List.TakeWhile

/-!
# Views of the log in memory

A `boost::string_ref` is a pointer and a length. Here it carries the bytes it
covers, its pointer as an offset into the log, and the bytes that lie in
memory behind it. The last part matters: the numeric field readers start from
a pointer and do not know where the view ends.

## Implementation notes

`string_ref::npos` is `none`. It is the largest `size_t`, which no position in
a log can reach, so nothing is identified that the source keeps apart.
-/

namespace QueryPlayback

abbrev Byte := UInt8

abbrev Bytes := List Byte

/-- A source string literal as bytes. -/
def bytes (s : String) : Bytes := s.toList.map fun c => c.toNat.toUInt8

/-- The byte of `'\n'`. -/
def newline : Byte := 10

/-- The byte of `'#'`. -/
def hash : Byte := 35

/-- `boost::string_ref`: `offset` is `data()`, `chars` the bytes it covers and
`after` the bytes between its end and the end of the log. -/
structure StringRef where
  offset : Nat
  chars : Bytes
  after : Bytes
  deriving DecidableEq, Repr

namespace StringRef

/-- The default constructed view, a null pointer with length zero. -/
def empty : StringRef := ⟨0, [], []⟩

/-- A whole log held in memory. -/
def ofBytes (log : Bytes) : StringRef := ⟨0, log, []⟩

def size (s : StringRef) : Nat := s.chars.length

def isEmpty (s : StringRef) : Bool := s.chars.isEmpty

def startsWith (s : StringRef) (p : Bytes) : Bool := p.isPrefixOf s.chars

def endsWith (s : StringRef) (p : Bytes) : Bool := p.isSuffixOf s.chars

/-- The memory from `data()` on, without regard to where the view ends. -/
def memory (s : StringRef) : Bytes := s.chars ++ s.after

/-- `string_ref(s.data(), len)`: a view at the same pointer with a new length. -/
def withLength (s : StringRef) (len : Nat) : StringRef :=
  ⟨s.offset, s.memory.take len, s.memory.drop len⟩

/-- `substr(pos, n)`, where `none` stands for `npos`. -/
def substr (s : StringRef) (pos : Nat) (n : Option Nat) : StringRef :=
  let rest := s.chars.drop pos
  let len := min (n.getD rest.length) rest.length
  ⟨s.offset + pos, rest.take len, rest.drop len ++ s.after⟩

/-- Cutting at a position without a length keeps everything behind it. -/
theorem substr_none (s : StringRef) (pos : Nat) :
    s.substr pos none = ⟨s.offset + pos, s.chars.drop pos, s.after⟩ := by
  simp only [substr, Option.getD_none, Nat.min_self, List.take_length, List.drop_length,
    List.nil_append]

/-- `find(char)`. -/
def findChar (s : StringRef) (c : Byte) : Option Nat := s.chars.findIdx? (· == c)

end StringRef

/-- `std::search` on bytes, with the end of the sequence as `none`. -/
def search (sub : Bytes) : Bytes → Option Nat
  | [] => none
  | c :: rest =>
      if sub.isPrefixOf (c :: rest) then some 0 else (search sub rest).map (· + 1)

/-- The file's own `find(str, substr)`. -/
def find (str : StringRef) (sub : Bytes) : Option Nat := search sub str.chars

/-- `readline(data, pos)`: the line at `pos` and the updated position. -/
def readline (data : StringRef) : Option Nat → StringRef × Option Nat
  | none => (StringRef.empty, none)
  | some pos =>
      if data.size ≤ pos then (StringRef.empty, some pos)
      else
        let newPos := ((data.substr pos none).findChar newline).map (· + 1)
        (data.substr pos newPos, newPos.map (pos + ·))

/-- The characters `trim` removes by default. -/
def blanks : Bytes := [32, 10, 13, 9]

/-- `trim(str, chars)` on the bytes of a view. -/
def trim (str : Bytes) (chars : Bytes := blanks) : Bytes :=
  ((str.dropWhile (· ∈ chars)).reverse.dropWhile (· ∈ chars)).reverse

/-- A text with a byte that is no blank survives `trim`. -/
theorem trim_ne_nil {l : Bytes} (h : ∃ c ∈ l, c ∉ blanks) : trim l ≠ [] := by
  obtain ⟨c, hc, hb⟩ := h
  intro hnil
  rw [trim, List.reverse_eq_nil_iff, List.dropWhile_eq_nil_iff] at hnil
  have hmem : c ∈ l.dropWhile (· ∈ blanks) := by
    rw [← List.takeWhile_append_dropWhile (p := (· ∈ blanks)) (l := l)] at hc
    rcases List.mem_append.mp hc with ht | hd
    · exact absurd (by simpa using List.mem_takeWhile_imp ht) hb
    · exact hd
  exact hb (by simpa using hnil c (List.mem_reverse.mpr hmem))

/-- The loop `for (line = readline(data, pos); !line.empty(); line = readline(data, pos))`
as the list of lines its body sees. The first argument bounds the iterations. -/
def readlines (data : StringRef) : Nat → Option Nat → List StringRef
  | 0, _ => []
  | fuel + 1, pos =>
      let (line, next) := readline data pos
      if line.isEmpty then [] else line :: readlines data fuel next

/-- The bytes `readline` has not consumed yet. -/
def remaining (data : StringRef) : Option Nat → Bytes
  | none => []
  | some pos => data.chars.drop pos

open Lines

@[simp] theorem remaining_none (data : StringRef) : remaining data none = [] := rfl

@[simp] theorem remaining_zero (data : StringRef) : remaining data (some 0) = data.chars := rfl

@[simp] theorem isEmpty_iff (s : StringRef) : s.isEmpty = true ↔ s.chars = [] := by
  simp [StringRef.isEmpty]

/-- At the end `readline` returns the empty view and keeps the position. -/
theorem readline_of_remaining_nil {data : StringRef} {pos : Option Nat}
    (h : remaining data pos = []) : readline data pos = (StringRef.empty, pos) := by
  cases pos with
  | none => rfl
  | some p =>
      have hp : data.size ≤ p := by simpa [remaining, StringRef.size] using h
      simp [readline, hp]

/-- What one call of `readline` returns before the end: the first line of the
unread bytes, at its place in memory. -/
theorem readline_of_remaining_ne_nil {data : StringRef} {pos : Option Nat}
    (h : remaining data pos ≠ []) :
    (readline data pos).1 =
        ⟨data.offset + (data.size - (remaining data pos).length),
          takeLine newline (remaining data pos),
          dropLine newline (remaining data pos) ++ data.after⟩ ∧
      remaining data (readline data pos).2 = dropLine newline (remaining data pos) := by
  cases pos with
  | none => exact absurd rfl h
  | some p =>
      have hp : p < data.size := by
        by_contra hle
        exact h (by simpa [remaining, StringRef.size] using hle)
      have hoff : data.size - (data.chars.drop p).length = p := by
        simp only [List.length_drop, StringRef.size] at hp ⊢
        omega
      simp only [readline, Nat.not_le.mpr hp, if_false, remaining, hoff,
        StringRef.findChar, StringRef.substr_none]
      cases hk : (data.chars.drop p).findIdx? (· == newline) with
      | none =>
          have hn := not_mem_of_findIdx?_eq_none newline hk
          simp [StringRef.substr_none, takeLine_of_not_mem newline hn,
            dropLine_of_not_mem newline hn]
      | some k =>
          have hlt : k < (data.chars.drop p).length :=
            (List.findIdx?_eq_some_iff_findIdx_eq.mp hk).1
          have hmin : min (k + 1) (data.chars.drop p).length = k + 1 := by omega
          constructor
          · simp only [StringRef.substr, Option.map_some, Option.getD_some, hmin,
              takeLine_of_findIdx? newline hk, dropLine_of_findIdx? newline hk]
          · simp only [Option.map_some, dropLine_of_findIdx? newline hk, List.drop_drop]

/-- In every case the bytes of the line and the rest make up the unread bytes. -/
theorem readline_spec (data : StringRef) (pos : Option Nat) :
    (readline data pos).1.chars = takeLine newline (remaining data pos) ∧
      remaining data (readline data pos).2 = dropLine newline (remaining data pos) := by
  by_cases h : remaining data pos = []
  · simp [readline_of_remaining_nil h, h, StringRef.empty]
  · obtain ⟨hl, hr⟩ := readline_of_remaining_ne_nil h
    exact ⟨by rw [hl], hr⟩

/-- With enough iterations the loop sees exactly the lines of the unread bytes. -/
theorem readlines_chars (data : StringRef) (fuel : Nat) (pos : Option Nat)
    (h : (remaining data pos).length < fuel) :
    (readlines data fuel pos).map StringRef.chars = lines newline (remaining data pos) := by
  induction fuel generalizing pos with
  | zero => omega
  | succ fuel ih =>
      obtain ⟨hl, hr⟩ := readline_spec data pos
      by_cases hne : remaining data pos = []
      · simp [readlines, hl, hne]
      · have hcut := dropLine_length_lt newline hne
        have htail := ih (readline data pos).2 (by rw [hr]; omega)
        rw [readlines, lines_eq_cons newline hne]
        simp [hl, hne, htail, hr]

end QueryPlayback
