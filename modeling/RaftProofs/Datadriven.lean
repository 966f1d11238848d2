import Mathlib.Data.List.Basic

/-!
The reader of datadriven test files (`datadriven/src/test_data_reader.rs`).

A test file is a sequence of blocks: a directive line, input lines, a separator line `----`,
and the expected output. The output ends at the first empty line, or, when it opens with a
second separator, at two separators in a row followed by an empty line. `next` reads one
block into `data` and says whether there was one.

Strings are lists of characters. `parse_line` is not among the sources and is a parameter;
an error from it is the panic of its `unwrap`, as a failed `expect` or `assert!` is.

Repeated calls of `next` read back any text of single-separator blocks whose output is not
empty, with comment and empty lines between them (`nextAll_blocks`). The other forms are
stated for every block: an output that runs to the end of the text panics, and a
double-separator output comes out with its opening separator and with each inner separator
after the line that follows it (`next_output_forms`).
-/

namespace RaftProofs.Datadriven

/-- A Rust string, as its characters. -/
abbrev Str := List Char

/-- `char::is_whitespace`: the characters with the Unicode property `White_Space`. -/
def isWhitespace (c : Char) : Bool :=
  c = ' ' || (9 ≤ c.toNat && c.toNat ≤ 13) || c.toNat = 0x85 || c.toNat = 0xA0 ||
    c.toNat = 0x1680 || (0x2000 ≤ c.toNat && c.toNat ≤ 0x200A) || c.toNat = 0x2028 ||
    c.toNat = 0x2029 || c.toNat = 0x202F || c.toNat = 0x205F || c.toNat = 0x3000

/-- `str::trim`: the string without the whitespace at either end. -/
def trim (s : Str) : Str := ((s.dropWhile isWhitespace).reverse.dropWhile isWhitespace).reverse

/-- The separator line. -/
def separator : Str := "----".toList

/-- Where the reader panics. -/
inductive ReaderPanic
  /-- `parse_line(..).unwrap()` on an error. -/
  | parseLine
  /-- `Option::expect` on `None`, with its message. -/
  | expect (msg : String)
  /-- A failed `assert!`, with its condition. -/
  | assertion (cond : String)
  deriving DecidableEq, Repr

/-- Modelled from the spec: `LineScanner` is not among the sources. Each `scan` yields the next
line of the text and counts it in `line`; after the last line it yields `none`. -/
structure LineScanner where
  lines : List Str
  line : ℕ

/-- `TestData`, with the fields the reader sets. -/
structure TestData (α : Type) where
  pos : Str
  cmd : Str
  cmdArgs : List α
  input : Str
  expected : Str

/-- `TestData::default()`: every field empty. -/
def TestData.default {α : Type} : TestData α := ⟨[], [], [], [], []⟩

/-- The position `format!("{}:{}", source_name, line)`: the source, a colon and the line number. -/
def pos (sourceName : Str) (line : ℕ) : Str := sourceName ++ ':' :: (toString line).toList

/-- `TestDataReader`, without `buf`, which nothing reads. -/
structure TestDataReader (α : Type) where
  sourceName : Str
  data : TestData α
  scanner : LineScanner

/-- `TestDataReader::new`, over the lines of the content. -/
def TestDataReader.new {α : Type} (sourceName : Str) (lines : List Str) : TestDataReader α :=
  ⟨sourceName, .default, ⟨lines, 0⟩⟩

/-- `while line.ends_with('\\')`: append the next line while the directive ends in a
backslash, and stop at the end of the text. -/
def joinLines (line : Str) : List Str → ℕ → Str × LineScanner
  | [], n => (line, ⟨[], n⟩)
  | l :: ls, n =>
    if line.getLast? = some '\\' then joinLines (line ++ l) ls (n + 1) else (line, ⟨l :: ls, n⟩)

/-- The input loop of `next`: the lines up to the first separator, and whether there was one. -/
def readInput (buf : Str) : List Str → ℕ → Str × Bool × LineScanner
  | [], n => (buf, false, ⟨[], n⟩)
  | l :: ls, n => if l = separator then (buf, true, ⟨ls,
    n + 1⟩) else readInput (buf ++ l) ls (n + 1)

/-- The message of every `expect` in `read_expected`. -/
def expectMsg : String := "this should not fails"

/-- The loop of `read_expected` after a second separator. -/
def readDouble (expected : Str) : List Str → ℕ → Except ReaderPanic (Str × LineScanner)
  | [], _ => .error (.expect expectMsg)
  | l :: ls, n =>
    if l = separator then
      match ls with
      | [] => .error (.expect expectMsg)
      | l2 :: ls2 =>
        if l2 = separator then
          match ls2 with
          | [] => .error (.expect expectMsg)
          | l3 :: ls3 =>
            if l3.isEmpty then .ok (expected, ⟨ls3, n + 3⟩)
            else .error (.assertion "line3.is_empty()")
        else readDouble (expected ++ l2 ++ l) ls2 (n + 2)
    else readDouble (expected ++ l) ls (n + 1)

/-- The loop of `read_expected` after a single separator: up to the first empty line. -/
def readSingle (expected : Str) : List Str → ℕ → Except ReaderPanic (Str × LineScanner)
  | [], _ => .error (.expect expectMsg)
  | l :: ls, n => if l.isEmpty then .ok (expected, ⟨ls,
    n + 1⟩) else readSingle (expected ++ trim l) ls (n + 1)

/-- `read_expected`: the first line after the separator is kept, trimmed, and decides which
loop reads the rest. -/
def readExpected (expected : Str) (sc : LineScanner) : Except ReaderPanic (Str × LineScanner) :=
  match sc.lines with
  | [] => .ok (expected, sc)
  | line :: ls =>
    if line = separator then readDouble (expected ++ trim line) ls (sc.line + 1)
    else readSingle (expected ++ trim line) ls (sc.line + 1)

section

variable {α : Type} (parseLine : Str → Option (Str × List α))

/-- The loop of `next`. Each turn scans a line, so `fuel` one more than the lines left is
never used up (`nextLoop_fuel`). -/
def nextLoop : ℕ → TestDataReader α → Except ReaderPanic (Bool × TestDataReader α)
  | 0, r => .ok (false, r)
  | fuel + 1, r =>
    match r.scanner.lines with
    | [] => .ok (false, r)
    | l :: ls =>
      let line := trim l
      let data : TestData α :=
        { TestData.default with pos := pos r.sourceName (r.scanner.line + 1) }
      if line.head? = some '#' then
        nextLoop fuel { r with data := data, scanner := ⟨ls, r.scanner.line + 1⟩ }
      else
        let (line, sc) := joinLines line ls (r.scanner.line + 1)
        match parseLine line with
        | none => .error .parseLine
        | some (cmd, cmdArgs) =>
          if cmd = [] then nextLoop fuel { r with data := data, scanner := sc }
          else
            let data := { data with cmd := cmd, cmdArgs := cmdArgs }
            if cmd = "subtest".toList then .ok (true, { r with data := data, scanner := sc })
            else
              let (buf, sep, sc) := readInput [] sc.lines sc.line
              let data := { data with input := trim buf }
              if sep then
                (fun (expected, sc) =>
                  (true, { r with data := { data with expected := expected }, scanner := sc })) <$>
                  readExpected data.expected sc
              else .ok (true, { r with data := data, scanner := sc })

/-- `next`: read the next block into `data`; `false` at the end of the text. -/
def next (r : TestDataReader α) : Except ReaderPanic (Bool × TestDataReader α) :=
  nextLoop parseLine (r.scanner.lines.length + 1) r

lemma joinLines_length (line : Str) (ls : List Str) (n : ℕ) :
    (joinLines line ls n).2.lines.length ≤ ls.length := by
  induction ls generalizing line n with
  | nil => simp [joinLines]
  | cons l ls ih =>
    simp only [joinLines]
    split
    · exact (ih _ _).trans (Nat.le_succ _)
    · exact le_rfl

/-- Any fuel beyond the lines left gives the same result. -/
lemma nextLoop_congr {f g : ℕ} {r : TestDataReader α} (hf : r.scanner.lines.length < f)
    (hg : r.scanner.lines.length < g) : nextLoop parseLine f r = nextLoop parseLine g r := by
  induction f generalizing g r with
  | zero => omega
  | succ f ih =>
    obtain _ | g := g
    · omega
    simp only [nextLoop]
    split
    · rfl
    · rename_i l ls hls
      have hlen : ls.length < f ∧ ls.length < g := by simp [hls] at hf hg; omega
      have hjoin := joinLines_length (trim l) ls (r.scanner.line + 1)
      split
      · exact ih hlen.1 hlen.2
      · split
        · rfl
        · split
          · exact ih (by simp; omega) (by simp; omega)
          · rfl

lemma nextLoop_fuel {f : ℕ} {r : TestDataReader α} (hf : r.scanner.lines.length < f) :
    nextLoop parseLine f r = next parseLine r :=
  nextLoop_congr parseLine hf (Nat.lt_succ_self _)

end

/-- **A double-separator block is read wrongly.** For the block `cmd`, `----`, `----`, `a`,
`----`, `b`, `----`, `----`, `` (output lines `a`, `----`, `b`), with any `parse_line` that
reads `cmd` as the command, `next` puts the opening separator into `expected` and the inner
`----` after the line that follows it: `expected` is `----ab----`, not `a----b`. -/
theorem next_double_separator {α : Type} (parseLine : Str → Option (Str × List α)) (args : List α)
    (h : parseLine "cmd".toList = some ("cmd".toList, args)) :
    ∃ r, next parseLine (.new "t".toList
        (["cmd", "----", "----", "a", "----", "b", "----", "----", ""].map String.toList)) =
        .ok (true, r) ∧ r.data.input = [] ∧ r.data.expected = "----ab----".toList := by
  have h' : parseLine ['c', 'm', 'd'] = some (['c', 'm', 'd'], args) := h
  simp +decide [next, nextLoop, TestDataReader.new, TestData.default, trim, joinLines, h',
    readInput, readExpected, readDouble, separator]

theorem next_double_separator_example :
    (fun l => some (l, ([] : List Unit))) "cmd".toList = some ("cmd".toList, []) ∧
    ∃ r, next (fun l => some (l, ([] : List Unit))) (.new "t".toList
        (["cmd", "----", "----", "a", "----", "b", "----", "----", ""].map String.toList)) =
        .ok (true, r) ∧ r.data.input = [] ∧ r.data.expected = "----ab----".toList :=
  ⟨rfl, next_double_separator _ [] rfl⟩

/-! ### Reading well-formed blocks -/

section

variable {α : Type} (parseLine : Str → Option (Str × List α))

lemma joinLines_of_getLast {line : Str} (h : line.getLast? ≠ some '\\') (ls : List Str) (n : ℕ) :
    joinLines line ls n = (line, ⟨ls, n⟩) := by
  cases ls <;> simp [joinLines, h]

lemma readInput_append (buf : Str) {ls : List Str} (h : ∀ l ∈ ls, l ≠ separator)
    (rest : List Str) (n : ℕ) :
    readInput buf (ls ++ separator :: rest) n =
      (buf ++ ls.flatten, true, ⟨rest, n + ls.length + 1⟩) := by
  induction ls generalizing buf n with
  | nil => simp [readInput]
  | cons l ls ih =>
    rw [List.cons_append, readInput, if_neg (h l (.head _)), ih _ fun l hl => h l (.tail _ hl)]
    simp only [List.flatten_cons, List.append_assoc, List.length_cons, Prod.mk.injEq,
      LineScanner.mk.injEq, true_and]
    omega

lemma readSingle_append (expected : Str) {ls : List Str} (h : ∀ l ∈ ls, l ≠ [])
    (rest : List Str) (n : ℕ) :
    readSingle expected (ls ++ [] :: rest) n =
      .ok (expected ++ (ls.map trim).flatten, ⟨rest, n + ls.length + 1⟩) := by
  induction ls generalizing expected n with
  | nil => simp [readSingle]
  | cons l ls ih =>
    rw [List.cons_append, readSingle, if_neg (by simpa using h l (.head _)),
      ih _ fun l hl => h l (.tail _ hl)]
    simp only [List.map_cons, List.flatten_cons, List.append_assoc, List.length_cons,
      Except.ok.injEq, Prod.mk.injEq, LineScanner.mk.injEq, true_and]
    omega

/-- A line `next` passes over: a comment, or a line that does not go on to the next one and
that `parse_line` reads as no command, as it should an empty line. -/
def Skippable (l : Str) : Prop :=
  (trim l).head? = some '#' ∨
    (trim l).getLast? ≠ some '\\' ∧ ∃ args, parseLine (trim l) = some ([], args)

/-- A block in the single-separator form, as a test file writes it: comment or empty lines,
the directive line, the input lines, `----`, and the output lines up to an empty line. `cmd`
and `cmdArgs` are what the directive stands for. -/
structure Block (α : Type) where
  skip : List Str
  directive : Str
  cmd : Str
  cmdArgs : List α
  input : List Str
  output : List Str

/-- The lines of the block from its directive on. -/
def Block.body (b : Block α) : List Str :=
  b.directive :: (b.input ++ separator :: (b.output ++ [[]]))

/-- The lines of the block. -/
def Block.lines (b : Block α) : List Str := b.skip ++ b.body

/-- The data the block should be read into, at position `pos`. -/
def Block.data (b : Block α) (pos : Str) : TestData α :=
  ⟨pos, b.cmd, b.cmdArgs, trim b.input.flatten, (b.output.map trim).flatten⟩

/-- What the reader needs to reach the output of a block: the lines before the directive are
passed over; the directive is not a comment, does not go on to the next line, and parses to
the block's command, which is neither empty nor `subtest`; and no input line is a
separator. -/
structure Block.Head (b : Block α) : Prop where
  skip : ∀ l ∈ b.skip, Skippable parseLine l
  not_comment : (trim b.directive).head? ≠ some '#'
  not_wrapped : (trim b.directive).getLast? ≠ some '\\'
  parse : parseLine (trim b.directive) = some (b.cmd, b.cmdArgs)
  cmd_ne_nil : b.cmd ≠ []
  cmd_ne_subtest : b.cmd ≠ "subtest".toList
  input_ne : ∀ l ∈ b.input, l ≠ separator

/-- What the reader needs to read a block back: its head, and an output with a first line,
which is not a separator, and no empty line. -/
structure Block.Wf (b : Block α) extends b.Head parseLine : Prop where
  output_ne_nil : ∀ l ∈ b.output, l ≠ []
  output_head : ∃ o os, b.output = o :: os ∧ o ≠ separator

lemma readExpected_block {b : Block α} (hb : b.Wf parseLine) (rest : List Str) (n : ℕ) :
    readExpected [] ⟨b.output ++ [] :: rest, n⟩ =
      .ok ((b.output.map trim).flatten, ⟨rest, n + b.output.length + 1⟩) := by
  obtain ⟨o, os, ho, hsep⟩ := hb.output_head
  have hos : ∀ l ∈ os, l ≠ [] := fun l hl => hb.output_ne_nil l (ho ▸ .tail _ hl)
  simp only [readExpected, ho, List.cons_append, if_neg hsep, List.nil_append,
    readSingle_append _ hos, List.map_cons, List.flatten_cons, List.length_cons]
  congr 3
  omega

/-- `next` on a directive whose input is ended by a separator: the rest is up to
`read_expected`. -/
lemma next_directive {b : Block α} (hb : b.Head parseLine) (r : TestDataReader α)
    (out : List Str) (n : ℕ) :
    next parseLine { r with scanner := ⟨b.directive :: (b.input ++ separator :: out), n⟩ } =
      (fun (expected, sc) => (true, { r with
        data := { b.data (pos r.sourceName (n + 1)) with expected := expected }
        scanner := sc })) <$> readExpected [] ⟨out, n + b.input.length + 2⟩ := by
  simp only [next, List.length_cons, nextLoop, if_neg hb.not_comment,
    joinLines_of_getLast hb.not_wrapped, hb.parse, if_neg hb.cmd_ne_nil,
    if_neg hb.cmd_ne_subtest, readInput_append [] hb.input_ne, ↓reduceIte, TestData.default,
    List.nil_append, Block.data]
  rw [show n + 1 + b.input.length + 1 = n + b.input.length + 2 by omega]

lemma next_skip {l : Str} (hl : Skippable parseLine l) (r : TestDataReader α) (ls : List Str)
    (n : ℕ) :
    next parseLine { r with scanner := ⟨l :: ls, n⟩ } = next parseLine { r with
      data := { TestData.default with pos := pos r.sourceName (n + 1) }
      scanner := ⟨ls, n + 1⟩ } := by
  conv_lhs => rw [next, List.length_cons, nextLoop]
  dsimp only
  split
  · rfl
  rcases hl with hc | ⟨hw, args, hp⟩
  · contradiction
  · simp only [joinLines_of_getLast hw, hp, ↓reduceIte]
    rfl

lemma next_skips {skip : List Str} (h : ∀ l ∈ skip, Skippable parseLine l)
    (r : TestDataReader α) (ls : List Str) (n : ℕ) :
    ∃ d, next parseLine { r with scanner := ⟨skip ++ ls, n⟩ } =
      next parseLine { r with data := d, scanner := ⟨ls, n + skip.length⟩ } := by
  induction skip generalizing r n with
  | nil => exact ⟨r.data, rfl⟩
  | cons l skip ih =>
    obtain ⟨d, hd⟩ := ih (fun l hl => h l (.tail _ hl))
      { r with data := { TestData.default with pos := pos r.sourceName (n + 1) } } (n + 1)
    refine ⟨d, ?_⟩
    rw [List.cons_append, next_skip parseLine (h l (.head _)), List.length_cons,
      show n + (skip.length + 1) = n + 1 + skip.length by omega]
    exact hd

/-- `next` on a block whose head is well formed: the rest is up to `read_expected`. -/
lemma next_head {b : Block α} (hb : b.Head parseLine) (r : TestDataReader α) (out : List Str)
    (n : ℕ) :
    next parseLine
        { r with scanner := ⟨b.skip ++ b.directive :: (b.input ++ separator :: out), n⟩ } =
      (fun (expected, sc) => (true, { r with
        data := { b.data (pos r.sourceName (n + b.skip.length + 1)) with expected := expected }
        scanner := sc })) <$> readExpected [] ⟨out, n + b.skip.length + b.input.length + 2⟩ := by
  obtain ⟨d, hd⟩ := next_skips parseLine hb.skip r _ n
  rw [hd, next_directive parseLine hb { r with data := d }]

/-- **A well-formed block is read back.** `next` on a block followed by any lines returns
`true` with the block's data, at the line of its directive, and leaves the scanner after the
block's empty last line. -/
lemma next_block {b : Block α} (hb : b.Wf parseLine) (r : TestDataReader α) (rest : List Str)
    (n : ℕ) :
    next parseLine { r with scanner := ⟨b.lines ++ rest, n⟩ } =
      .ok (true, { r with
        data := b.data (pos r.sourceName (n + b.skip.length + 1))
        scanner := ⟨rest, n + b.lines.length⟩ }) := by
  have hlines : b.lines ++ rest =
      b.skip ++ b.directive :: (b.input ++ separator :: (b.output ++ [] :: rest)) := by
    simp [Block.lines, Block.body]
  rw [hlines, next_head parseLine hb.toHead, readExpected_block parseLine hb]
  simp [Functor.map, Except.map, Block.data, Block.lines, Block.body]
  omega

/-- Call `next` until it returns `false`, at most `fuel` times, and collect `data` after each
call that returns `true`: how a test driver reads a file. -/
def nextAll : ℕ → TestDataReader α → Except ReaderPanic (List (TestData α))
  | 0, _ => .ok []
  | fuel + 1, r => next parseLine r >>= fun (more, r) =>
    if more then (r.data :: ·) <$> nextAll fuel r else .ok []

/-- The data of blocks written one after another after line `n` of `sourceName`. -/
def Block.datas (sourceName : Str) : ℕ → List (Block α) → List (TestData α)
  | _, [] => []
  | n, b :: bs =>
    b.data (pos sourceName (n + b.skip.length + 1)) ::
      Block.datas sourceName (n + b.lines.length) bs

lemma nextAll_flatMap {bs : List (Block α)} (hbs : ∀ b ∈ bs, b.Wf parseLine) {fuel : ℕ}
    (hf : bs.length < fuel) (r : TestDataReader α) (n : ℕ) :
    nextAll parseLine fuel { r with scanner := ⟨bs.flatMap Block.lines, n⟩ } =
      .ok (Block.datas r.sourceName n bs) := by
  induction bs generalizing r n fuel with
  | nil =>
    obtain _ | fuel := fuel
    exacts [absurd hf (by simp), rfl]
  | cons b bs ih =>
    obtain _ | fuel := fuel
    · simp at hf
    have hrest := ih (fun b hb => hbs b (.tail _ hb)) (by simpa using hf)
      { r with data := b.data (pos r.sourceName (n + b.skip.length + 1)) } (n + b.lines.length)
    rw [List.flatMap_cons, nextAll, next_block parseLine (hbs b (.head _))]
    simp only [bind, Except.bind, ↓reduceIte, Block.datas]
    rw [hrest]
    rfl

/-- **Well-formed blocks are read back, one per call.** On a text of well-formed
single-separator blocks, the calls of `next` return `true` once per block, with that block's
data at the line of its directive, and then `false`; any fuel beyond the number of blocks
gives the same data. -/
theorem nextAll_blocks (sourceName : Str) (bs : List (Block α)) (hbs : ∀ b ∈ bs, b.Wf parseLine)
    (fuel : ℕ) (hf : bs.length < fuel) :
    nextAll parseLine fuel (.new sourceName (bs.flatMap Block.lines)) =
      .ok (Block.datas sourceName 0 bs) :=
  nextAll_flatMap parseLine hbs hf ⟨sourceName, .default, ⟨[], 0⟩⟩ 0

end

theorem nextAll_blocks_example :
    (∀ b ∈ [(⟨[], "a".toList, "a".toList, [], [" x".toList], ["y ".toList]⟩ : Block Unit),
        ⟨["# c".toList, []], "b".toList, "b".toList, [], [], ["p".toList, "q".toList]⟩],
      b.Wf fun l => some (l, [])) ∧ 2 < 3 ∧
    nextAll (fun l => some (l, ([] : List Unit))) 3 (.new "t".toList
      ([(⟨[], "a".toList, "a".toList, [], [" x".toList], ["y ".toList]⟩ : Block Unit),
        ⟨["# c".toList, []], "b".toList, "b".toList, [], [], ["p".toList, "q".toList]⟩].flatMap
          Block.lines)) =
      .ok (Block.datas "t".toList 0
        [⟨[], "a".toList, "a".toList, [], [" x".toList], ["y ".toList]⟩,
          ⟨["# c".toList, []], "b".toList, "b".toList, [], [], ["p".toList, "q".toList]⟩]) := by
  have hbs : ∀ b ∈ [(⟨[], "a".toList, "a".toList, [], [" x".toList], ["y ".toList]⟩ : Block Unit),
      ⟨["# c".toList, []], "b".toList, "b".toList, [], [], ["p".toList, "q".toList]⟩],
      b.Wf fun l => some (l, []) := by
    simp only [List.forall_mem_cons, List.not_mem_nil, false_imp_iff, implies_true, and_true]
    exact ⟨⟨⟨nofun, by decide, by decide, rfl, by decide, by decide, by decide⟩, by decide,
      ⟨_, _, rfl, by decide⟩⟩, ⟨⟨by simpa using ⟨.inl (by decide), .inr ⟨by decide, [], rfl⟩⟩,
      by decide, by decide, rfl, by decide, by decide, by decide⟩, by decide,
      ⟨_, _, rfl, by decide⟩⟩⟩
  exact ⟨hbs, by decide, nextAll_blocks _ "t".toList _ hbs 3 (by decide)⟩

/-! ### The other output forms -/

/-- What the loop after a second separator makes of output lines: each line as it is, except
that a separator comes out after the line that follows it. -/
def swapSeparators : List Str → Str
  | [] => []
  | [l] => l
  | l :: l2 :: ls =>
    if l = separator then l2 ++ l ++ swapSeparators ls else l ++ swapSeparators (l2 :: ls)

example : swapSeparators (["a", "----", "b"].map String.toList) = "ab----".toList := by decide

/-- Output lines of the double-separator form: no separator is followed by another or ends
them. -/
def noDoubleSep : List Str → Bool
  | [] => true
  | [l] => l ≠ separator
  | l :: l2 :: ls =>
    if l = separator then l2 ≠ separator && noDoubleSep ls else noDoubleSep (l2 :: ls)

lemma readDouble_of_ne (expected : Str) {l : Str} (hl : l ≠ separator) (ls : List Str) (n : ℕ) :
    readDouble expected (l :: ls) n = readDouble (expected ++ l) ls (n + 1) := by
  rw [readDouble.eq_def]
  simp only [if_neg hl]

lemma readDouble_separator (expected : Str) {l2 : Str} (hl2 : l2 ≠ separator) (ls : List Str)
    (n : ℕ) :
    readDouble expected (separator :: l2 :: ls) n =
      readDouble (expected ++ l2 ++ separator) ls (n + 2) := by
  simp [readDouble, hl2]

lemma readDouble_swap (expected : Str) {ls : List Str} (h : noDoubleSep ls) (rest : List Str)
    (n : ℕ) :
    readDouble expected (ls ++ separator :: separator :: [] :: rest) n =
      .ok (expected ++ swapSeparators ls, ⟨rest, n + ls.length + 3⟩) := by
  induction ls using swapSeparators.induct generalizing expected n with
  | case1 => simp [readDouble, swapSeparators]
  | case2 l =>
    simp only [noDoubleSep, decide_eq_true_eq] at h
    simp [readDouble, swapSeparators, h]
  | case3 l2 ls ih =>
    simp only [noDoubleSep, ↓reduceIte, Bool.and_eq_true, decide_eq_true_eq] at h
    rw [List.cons_append, List.cons_append, readDouble_separator _ h.1, ih _ h.2]
    simp only [swapSeparators, ↓reduceIte, List.append_assoc, List.length_cons]
    congr 3
    omega
  | case4 l l2 ls hl ih =>
    simp only [noDoubleSep, if_neg hl] at h
    rw [List.cons_append, readDouble_of_ne _ hl, ih _ h]
    simp only [swapSeparators, if_neg hl, List.append_assoc, List.length_cons]
    congr 3
    omega

lemma readSingle_eof (expected : Str) {ls : List Str} (h : ∀ l ∈ ls, l ≠ []) (n : ℕ) :
    readSingle expected ls n = .error (.expect expectMsg) := by
  induction ls generalizing expected n with
  | nil => rfl
  | cons l ls ih =>
    rw [readSingle, if_neg (by simpa using h l (.head _)), ih _ (fun l hl => h l (.tail _ hl))]

section

variable {α : Type} (parseLine : Str → Option (Str × List α))

/-- **What `next` makes of the other output forms.** For a block whose head is well formed:
a single-separator output with a first line other than a separator and no empty line after
it, so that it runs to the end of the text, makes `next` panic in
`expect("this should not fails")`; and a double-separator output, `----`, `----`, the lines
(no separator followed by another or last), `----`, `----` and an empty line, is read into
`expected` as the opening separator followed by the lines, each separator among them moved
after the line that follows it. -/
theorem next_output_forms (b : Block α) (hb : b.Head parseLine) (r : TestDataReader α) (n : ℕ) :
    (∀ o os, b.output = o :: os → o ≠ separator → (∀ l ∈ os, l ≠ []) →
      next parseLine
          { r with scanner := ⟨b.skip ++ b.directive :: (b.input ++ separator :: b.output), n⟩ } =
        .error (.expect "this should not fails")) ∧
    (noDoubleSep b.output → ∀ rest, next parseLine { r with scanner := ⟨b.skip ++ b.directive ::
        (b.input ++ separator :: separator :: (b.output ++ separator :: separator :: [] :: rest)),
        n⟩ } =
      .ok (true, { r with
        data := { b.data (pos r.sourceName (n + b.skip.length + 1)) with
          expected := separator ++ swapSeparators b.output }
        scanner := ⟨rest, n + b.skip.length + b.input.length + b.output.length + 6⟩ })) := by
  refine ⟨fun o os ho hsep hos => ?_, fun h rest => ?_⟩
  · rw [next_head parseLine hb, ho]
    simp only [readExpected, if_neg hsep, readSingle_eof _ hos]
    rfl
  · rw [next_head parseLine hb]
    simp only [readExpected, ↓reduceIte, readDouble_swap _ h]
    simp [Functor.map, Except.map, show trim separator = separator by decide]
    omega

end

theorem next_output_forms_example :
    Block.Head (fun l => some (l, ([] : List Unit)))
        ⟨[], "cmd".toList, "cmd".toList, [], [], ["a", "----", "b"].map String.toList⟩ ∧
    (∀ o os, (["a", "----", "b"].map String.toList) = o :: os → o ≠ separator →
      (∀ l ∈ os, l ≠ []) →
      next (fun l => some (l, ([] : List Unit))) { (TestDataReader.new "t".toList [] :
          TestDataReader Unit) with scanner := ⟨[] ++ "cmd".toList :: ([] ++ separator ::
            ["a", "----", "b"].map String.toList), 0⟩ } =
        .error (.expect "this should not fails")) ∧
    (noDoubleSep (["a", "----", "b"].map String.toList) → ∀ rest,
      next (fun l => some (l, ([] : List Unit))) { (TestDataReader.new "t".toList [] :
          TestDataReader Unit) with scanner := ⟨[] ++ "cmd".toList :: ([] ++ separator ::
            separator :: ((["a", "----", "b"].map String.toList) ++ separator :: separator ::
            [] :: rest)), 0⟩ } =
      .ok (true, { (TestDataReader.new "t".toList [] : TestDataReader Unit) with
        data := { Block.data ⟨[], "cmd".toList, "cmd".toList, [], [],
            ["a", "----", "b"].map String.toList⟩ (pos "t".toList (0 + 0 + 1)) with
          expected := separator ++ swapSeparators (["a", "----", "b"].map String.toList) }
        scanner := ⟨rest, 0 + 0 + 0 + 3 + 6⟩ })) := by
  have hb : Block.Head (fun l => some (l, ([] : List Unit)))
      ⟨[], "cmd".toList, "cmd".toList, [], [], ["a", "----", "b"].map String.toList⟩ :=
    ⟨nofun, by decide, by decide, rfl, by decide, by decide, nofun⟩
  exact ⟨hb, next_output_forms _ _ hb (.new "t".toList []) 0⟩

/-! ### Wrapped directives and empty outputs -/

section

variable {α : Type} (parseLine : Str → Option (Str × List α))

lemma joinLines_wrapped {line : Str} {conts : List Str}
    (hw : ∀ i < conts.length, (line ++ (conts.take i).flatten).getLast? = some '\\')
    (hend : (line ++ conts.flatten).getLast? ≠ some '\\') (rest : List Str) (n : ℕ) :
    joinLines line (conts ++ rest) n = (line ++ conts.flatten, ⟨rest, n + conts.length⟩) := by
  induction conts generalizing line n with
  | nil => simpa using joinLines_of_getLast (by simpa using hend) rest n
  | cons c cs ih =>
    have h0 : line.getLast? = some '\\' := by simpa using hw 0 (by simp)
    rw [List.cons_append, joinLines, if_pos h0,
      ih (fun i hi => by simpa using hw (i + 1) (by simp; omega)) (by simpa using hend)]
    simp only [List.flatten_cons, List.append_assoc, List.length_cons, Prod.mk.injEq,
      LineScanner.mk.injEq, true_and]
    omega

/-- **A wrapped directive is joined with its backslashes.** A directive written over the lines
`d`, `conts`, where the line joined so far ends in a backslash after each line but the last,
reaches `parse_line` as `d` trimmed followed by the other lines as they are: the backslashes
stay, and nothing is put between the lines. The block is reported at the line of `d`, and its
input and output are read after the last line of the directive. -/
theorem next_wrapped_directive (r : TestDataReader α) (d : Str) (conts : List Str)
    (hc : (trim d).head? ≠ some '#')
    (hw : ∀ i < conts.length, (trim d ++ (conts.take i).flatten).getLast? = some '\\')
    (hend : (trim d ++ conts.flatten).getLast? ≠ some '\\') (cmd : Str) (args : List α)
    (hp : parseLine (trim d ++ conts.flatten) = some (cmd, args)) (hcmd : cmd ≠ [])
    (hsub : cmd ≠ "subtest".toList) (input : List Str) (hin : ∀ l ∈ input, l ≠ separator)
    (out : List Str) (n : ℕ) :
    next parseLine { r with scanner := ⟨d :: (conts ++ input ++ separator :: out), n⟩ } =
      (fun (expected, sc) => (true, { r with
        data := ⟨pos r.sourceName (n + 1), cmd, args, trim input.flatten, expected⟩
        scanner := sc })) <$> readExpected [] ⟨out, n + conts.length + input.length + 2⟩ := by
  simp only [next, List.length_cons, nextLoop, if_neg hc, List.append_assoc,
    joinLines_wrapped hw hend, hp, if_neg hcmd, if_neg hsub, readInput_append [] hin,
    ↓reduceIte, TestData.default, List.nil_append]
  rw [show n + 1 + conts.length + input.length + 1 = n + conts.length + input.length + 2 by omega]

theorem next_wrapped_directive_example :
    let p : Str → Option (Str × List Unit) := fun l => some (l, [])
    let r : TestDataReader Unit := .new "t".toList []
    let d : Str := "cmd \\".toList
    let conts : List Str := ["arg".toList]
    (trim d).head? ≠ some '#' ∧
    (∀ i < conts.length, (trim d ++ (conts.take i).flatten).getLast? = some '\\') ∧
    (trim d ++ conts.flatten).getLast? ≠ some '\\' ∧
    p (trim d ++ conts.flatten) = some ("cmd \\arg".toList, []) ∧
    "cmd \\arg".toList ≠ [] ∧ "cmd \\arg".toList ≠ "subtest".toList ∧
    next p { r with scanner := ⟨d :: (conts ++ [] ++ separator :: []), 0⟩ } =
      (fun (expected, sc) => (true, { r with
        data := ⟨pos r.sourceName (0 + 1), "cmd \\arg".toList, [], trim ([] : List Str).flatten,
          expected⟩
        scanner := sc })) <$> readExpected [] ⟨[], 0 + conts.length + 0 + 2⟩ := by
  intro p r d conts
  have hw : ∀ i < conts.length, (trim d ++ (conts.take i).flatten).getLast? = some '\\' := by
    decide
  have hp : p (trim d ++ conts.flatten) = some ("cmd \\arg".toList, []) := by
    simp only [p, Option.some.injEq, Prod.mk.injEq, and_true]
    decide
  exact ⟨by decide, hw, by decide, hp, by decide, by decide,
    next_wrapped_directive p r d conts (by decide) hw (by decide) _ [] hp (by decide)
      (by decide) [] nofun [] 0⟩

/-- **An empty expected output takes the next lines.** The first line after the separator is
not checked for being empty: for a block whose head is well formed and whose output is written
empty, as the separator followed by an empty line, `next` reads the lines after that empty line,
up to the next one, trimmed and joined, as the block's expected output, and goes on after them.
So the block after one with an empty output is read into that output. -/
theorem next_empty_output (b : Block α) (hb : b.Head parseLine) (r : TestDataReader α)
    {ls : List Str} (hls : ∀ l ∈ ls, l ≠ []) (rest : List Str) (n : ℕ) :
    next parseLine { r with scanner := ⟨b.skip ++ b.directive ::
        (b.input ++ separator :: [] :: (ls ++ [] :: rest)), n⟩ } =
      .ok (true, { r with
        data := { b.data (pos r.sourceName (n + b.skip.length + 1)) with
          expected := (ls.map trim).flatten }
        scanner := ⟨rest, n + b.skip.length + b.input.length + ls.length + 4⟩ }) := by
  rw [next_head parseLine hb]
  simp only [readExpected, show ([] : Str) ≠ separator by decide, ↓reduceIte,
    readSingle_append _ hls]
  simp only [Functor.map, Except.map, show trim [] = [] by rfl, List.append_nil, List.nil_append,
    Except.ok.injEq, Prod.mk.injEq, TestDataReader.mk.injEq, LineScanner.mk.injEq, true_and]
  omega

theorem next_empty_output_example :
    let p : Str → Option (Str × List Unit) := fun l => some (l, [])
    let b : Block Unit := ⟨[], "cmd".toList, "cmd".toList, [], [], []⟩
    let r : TestDataReader Unit := .new "t".toList []
    let ls : List Str := ["next".toList, " x".toList]
    b.Head p ∧ (∀ l ∈ ls, l ≠ []) ∧
    next p { r with scanner := ⟨b.skip ++ b.directive ::
        (b.input ++ separator :: [] :: (ls ++ [] :: [])), 0⟩ } =
      .ok (true, { r with
        data := { b.data (pos r.sourceName (0 + b.skip.length + 1)) with
          expected := (ls.map trim).flatten }
        scanner := ⟨[], 0 + b.skip.length + b.input.length + ls.length + 4⟩ }) := by
  intro p b r ls
  have hb : b.Head p := ⟨nofun, by decide, by decide, rfl, by decide, by decide, nofun⟩
  exact ⟨hb, by decide, next_empty_output p b hb r (by decide) [] 0⟩

end

end RaftProofs.Datadriven
