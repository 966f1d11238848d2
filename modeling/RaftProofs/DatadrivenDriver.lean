import RaftProofs.Datadriven
import RaftProofs.ReadOnly

/-!
The datadriven reader over a whole file: what one call of `next` reads, and the driver loop
that calls it until it returns `false`.

Every loop of the reader only scans lines, so after any call the scanner is where it was
with some lines scanned, and its count went up by as many (`LineScanner.Scanned`). A call that
returns `true` has scanned at least one line and reports the position of one of them; a call
that returns `false` has reached the end of the text. So `while r.next()` stops on every text,
within one call more than the text has lines, and the blocks it reads are reported at lines of
the text in increasing order.
-/

namespace RaftProofs.Datadriven

namespace LineScanner

/-- `sc'` is `sc` after some more lines were scanned: its lines are what is left of those of
`sc`, and its count went up by the lines scanned. -/
def Scanned (sc sc' : LineScanner) : Prop :=
  ∃ consumed, sc.lines = consumed ++ sc'.lines ∧ sc'.line = sc.line + consumed.length

lemma Scanned.refl (sc : LineScanner) : sc.Scanned sc := ⟨[], rfl, rfl⟩

lemma Scanned.trans {sc₁ sc₂ sc₃ : LineScanner} (h₁ : sc₁.Scanned sc₂) (h₂ : sc₂.Scanned sc₃) :
    sc₁.Scanned sc₃ := by
  obtain ⟨c₁, h₁, h₁'⟩ := h₁
  obtain ⟨c₂, h₂, h₂'⟩ := h₂
  refine ⟨c₁ ++ c₂, by rw [h₁, h₂, List.append_assoc], ?_⟩
  simp only [h₂', h₁', List.length_append]
  omega

lemma Scanned.cons (l : Str) (ls : List Str) (n : ℕ) : Scanned ⟨l :: ls, n⟩ ⟨ls, n + 1⟩ :=
  ⟨[l], rfl, rfl⟩

/-- Scanning moves lines from what is left to the count. -/
lemma Scanned.line_add_length {sc sc' : LineScanner} (h : sc.Scanned sc') :
    sc'.line + sc'.lines.length = sc.line + sc.lines.length := by
  obtain ⟨c, hl, hn⟩ := h
  simp only [hl, hn, List.length_append]
  omega

lemma Scanned.le {sc sc' : LineScanner} (h : sc.Scanned sc') :
    sc.line ≤ sc'.line ∧ sc'.lines.length ≤ sc.lines.length := by
  obtain ⟨c, hl, hn⟩ := h
  simp only [hl, hn, List.length_append]
  omega

/-- A scanner over a text stays over it: what is left is the text after the lines counted. -/
lemma Scanned.drop {sc sc' : LineScanner} (h : sc.Scanned sc') {text : List Str}
    (ht : sc.lines = text.drop sc.line) : sc'.lines = text.drop sc'.line := by
  obtain ⟨c, hl, hn⟩ := h
  rw [hn, ← List.drop_drop, ← ht, hl, List.drop_left]

end LineScanner

open LineScanner

/-! ### Each loop only scans -/

lemma joinLines_scanned (line : Str) (ls : List Str) (n : ℕ) :
    Scanned ⟨ls, n⟩ (joinLines line ls n).2 := by
  induction ls generalizing line n with
  | nil => exact .refl _
  | cons l ls ih =>
    simp only [joinLines]
    split
    exacts [(Scanned.cons l ls n).trans (ih _ _), .refl _]

lemma readInput_scanned (buf : Str) (ls : List Str) (n : ℕ) :
    Scanned ⟨ls, n⟩ (readInput buf ls n).2.2 := by
  induction ls generalizing buf n with
  | nil => exact .refl _
  | cons l ls ih =>
    simp only [readInput]
    split
    exacts [Scanned.cons l ls n, (Scanned.cons l ls n).trans (ih _ _)]

lemma readDouble_scanned {expected expected' : Str} {ls : List Str} {n : ℕ} {sc : LineScanner}
    (h : readDouble expected ls n = .ok (expected', sc)) : Scanned ⟨ls, n⟩ sc := by
  induction expected, ls, n using readDouble.induct with
  | case1 | case2 | case3 | case5 => simp_all [readDouble]
  | case4 expected n l3 ls3 hl3 =>
    simp only [readDouble, ↓reduceIte, hl3, Except.ok.injEq, Prod.mk.injEq] at h
    rw [← h.2]
    exact ⟨[separator, separator, l3], rfl, rfl⟩
  | case6 expected n l2 ls2 hl2 ih =>
    rw [readDouble_separator _ hl2] at h
    have hstep : Scanned ⟨separator :: l2 :: ls2, n⟩ ⟨ls2, n + 2⟩ := ⟨[separator, l2], rfl, rfl⟩
    exact hstep.trans (ih h)
  | case7 expected l ls n hl ih =>
    rw [readDouble_of_ne _ hl] at h
    exact (Scanned.cons l ls n).trans (ih h)

lemma readSingle_scanned {expected expected' : Str} {ls : List Str} {n : ℕ} {sc : LineScanner}
    (h : readSingle expected ls n = .ok (expected', sc)) : Scanned ⟨ls, n⟩ sc := by
  induction ls generalizing expected n with
  | nil => cases h
  | cons l ls ih =>
    simp only [readSingle] at h
    split at h
    · cases h
      exact Scanned.cons l ls n
    · exact (Scanned.cons l ls n).trans (ih h)

lemma readExpected_scanned {expected expected' : Str} {sc sc' : LineScanner}
    (h : readExpected expected sc = .ok (expected', sc')) : sc.Scanned sc' := by
  unfold readExpected at h
  split at h
  · cases h
    exact .refl _
  · rename_i l ls hls
    have hstep : sc.Scanned ⟨ls, sc.line + 1⟩ := ⟨[l], by simp [hls], rfl⟩
    split at h
    exacts [hstep.trans (readDouble_scanned h), hstep.trans (readSingle_scanned h)]

/-! ### One call of `next` -/

/-- Line `n` of the text is the directive of `d`: a line that is not a comment and that, with
the lines it is wrapped over, `parse_line` reads as the command and arguments of `d`, a command
that is not empty. -/
def DirectiveAt {α : Type} (parseLine : Str → Option (Str × List α)) (text : List Str) (n : ℕ)
    (d : TestData α) : Prop :=
  ∃ l, text[n - 1]? = some l ∧ (trim l).head? ≠ some '#' ∧
    parseLine (joinLines (trim l) (text.drop n) n).1 = some (d.cmd, d.cmdArgs) ∧ d.cmd ≠ []

/-- What a run of the loop of `next` on `fuel` turns does, from `r` to `r'` with the result
`more`: it scans on and keeps the source; after `true` it reports as the position a line it
scanned, which holds the directive of the block it read in any text the scanner is over; after
`false` it is at the end of the text, unless the fuel ran out first. -/
structure LoopResult {α : Type} (parseLine : Str → Option (Str × List α)) (fuel : ℕ)
    (r : TestDataReader α) (more : Bool) (r' : TestDataReader α) : Prop where
  scanned : r.scanner.Scanned r'.scanner
  source : r'.sourceName = r.sourceName
  reports : more = true → ∃ n, r.scanner.line < n ∧ n ≤ r'.scanner.line ∧
    r'.data.pos = pos r.sourceName n ∧
    ∀ text, r.scanner.lines = text.drop r.scanner.line → DirectiveAt parseLine text n r'.data
  ends : more = false → r'.scanner.lines = [] ∨ fuel ≤ r.scanner.lines.length

/-- The first line left is the line after those counted. -/
lemma getElem?_of_drop_eq_cons {text ls : List Str} {a : ℕ} {l : Str}
    (h : text.drop a = l :: ls) : text[a]? = some l ∧ text.drop (a + 1) = ls := by
  constructor
  · have := congrArg (·[0]?) h
    simpa [List.getElem?_drop] using this
  · rw [← List.drop_drop, h]
    rfl

section

variable {α : Type} {parseLine : Str → Option (Str × List α)} {fuel : ℕ} {r : TestDataReader α}
  {l : Str} {ls : List Str} {d : TestData α}

/-- A turn that scans the line `l` and goes on from a scanner further on. -/
lemma LoopResult.cont (hls : r.scanner.lines = l :: ls) {sc₁ : LineScanner}
    (h₁ : Scanned ⟨ls, r.scanner.line + 1⟩ sc₁) {more : Bool} {r' : TestDataReader α}
    (h : LoopResult parseLine fuel { r with data := d, scanner := sc₁ } more r') :
    LoopResult parseLine (fuel + 1) r more r' := by
  have hl : r.scanner.Scanned ⟨ls, r.scanner.line + 1⟩ := ⟨[l], by simp [hls], rfl⟩
  have hle₁ := h₁.le
  refine ⟨hl.trans (h₁.trans h.scanned), h.source, fun hm => ?_, fun hm => ?_⟩
  · obtain ⟨n, hn, hn', hpos, hdir⟩ := h.reports hm
    exact ⟨n, by simp only at hn hle₁; omega, hn', hpos,
      fun text ht => hdir text ((hl.trans h₁).drop ht)⟩
  · rcases h.ends hm with h' | h'
    exacts [.inl h', .inr (by simp only [hls, List.length_cons] at h' hle₁ ⊢; omega)]

/-- A turn that reads the block of the directive at the line `l` and stops at a scanner
further on. -/
lemma LoopResult.read (hls : r.scanner.lines = l :: ls) {sc' : LineScanner}
    (h' : Scanned ⟨ls, r.scanner.line + 1⟩ sc') (hc : (trim l).head? ≠ some '#')
    (hp : parseLine (joinLines (trim l) ls (r.scanner.line + 1)).1 = some (d.cmd, d.cmdArgs))
    (hcmd : d.cmd ≠ []) (hd : d.pos = pos r.sourceName (r.scanner.line + 1)) :
    LoopResult parseLine fuel r true { r with data := d, scanner := sc' } := by
  have hl : r.scanner.Scanned ⟨ls, r.scanner.line + 1⟩ := ⟨[l], by simp [hls], rfl⟩
  have hle := h'.le
  refine ⟨hl.trans h', rfl, fun _ => ⟨r.scanner.line + 1, by omega,
    by simp only at hle ⊢; omega, hd, fun text ht => ?_⟩, nofun⟩
  obtain ⟨hget, hdrop⟩ := getElem?_of_drop_eq_cons (hls ▸ ht).symm
  exact ⟨l, by simpa using hget, hc, by rw [hdrop]; exact hp, hcmd⟩

end

section

variable {α : Type} (parseLine : Str → Option (Str × List α))

lemma nextLoop_scanned {fuel : ℕ} {r r' : TestDataReader α} {more : Bool}
    (h : nextLoop parseLine fuel r = .ok (more, r')) : LoopResult parseLine fuel r more r' := by
  induction fuel generalizing r with
  | zero => cases h; exact ⟨.refl _, rfl, nofun, fun _ => .inr (Nat.zero_le _)⟩
  | succ fuel ih =>
    simp only [nextLoop] at h
    split at h
    · cases h
      exact ⟨.refl _, rfl, nofun, fun _ => .inl ‹_›⟩
    rename_i l ls hls
    split at h
    · exact .cont hls (.refl _) (ih h)
    rename_i hc
    have hsc := joinLines_scanned (trim l) ls (r.scanner.line + 1)
    split at h
    · cases h
    rename_i cmd args hp
    split at h
    · exact .cont hls hsc (ih h)
    rename_i hcmd
    split at h
    · cases h
      exact .read hls hsc hc hp hcmd rfl
    have hsc₂ := hsc.trans (readInput_scanned [] _ _)
    split at h
    · obtain ⟨⟨exp, sc₃⟩, h₃, he⟩ := map_eq_ok.mp h
      cases he
      exact .read hls (hsc₂.trans (readExpected_scanned h₃)) hc hp hcmd rfl
    · cases h
      exact .read hls hsc₂ hc hp hcmd rfl

/-- What the loop of `next` leaves: the scanner moved on and the source kept; after `true`,
fewer lines left and as the position a line scanned, which holds the directive of the block;
after `false`, the end of the text, unless the fuel ran out first. -/
lemma next_scanned {r r' : TestDataReader α} {more : Bool}
    (h : next parseLine r = .ok (more, r')) :
    r.scanner.Scanned r'.scanner ∧ r'.sourceName = r.sourceName ∧
      (more = true → r'.scanner.lines.length < r.scanner.lines.length ∧
        ∃ n, r.scanner.line < n ∧ n ≤ r'.scanner.line ∧ r'.data.pos = pos r.sourceName n ∧
          ∀ text, r.scanner.lines = text.drop r.scanner.line →
            DirectiveAt parseLine text n r'.data) ∧
      (more = false → r'.scanner.lines = []) := by
  obtain ⟨hsc, hsrc, ht, hf⟩ := nextLoop_scanned parseLine h
  have hsum := hsc.line_add_length
  refine ⟨hsc, hsrc, fun hm => ?_, fun hm => (hf hm).resolve_right (by omega)⟩
  obtain ⟨n, hn, hn', hpos, hdir⟩ := ht hm
  exact ⟨by omega, n, hn, hn', hpos, hdir⟩

/-! ### The driver loop -/

/-- Any number of calls beyond the lines left gives the same result. -/
lemma nextAll_congr {f g : ℕ} {r : TestDataReader α} (hf : r.scanner.lines.length < f)
    (hg : r.scanner.lines.length < g) : nextAll parseLine f r = nextAll parseLine g r := by
  induction f generalizing g r with
  | zero => omega
  | succ f ih =>
    obtain _ | g := g
    · omega
    simp only [nextAll]
    cases hn : next parseLine r with
    | error e => rfl
    | ok res =>
      obtain ⟨_ | _, r'⟩ := res
      · rfl
      · have hlt := ((next_scanned parseLine hn).2.2.1 rfl).1
        simp only [ok_bind, ↓reduceIte]
        rw [@ih g r' (by omega) (by omega)]

/-- The blocks the driver reads are reported at lines after the reader's line, up to the end of
the text, in increasing order, and the line each is reported at holds its directive. -/
lemma nextAll_pos {fuel : ℕ} {r : TestDataReader α} {ds : List (TestData α)} (text : List Str)
    (htext : r.scanner.lines = text.drop r.scanner.line)
    (h : nextAll parseLine fuel r = .ok ds) :
    ∃ ns : List ℕ, List.Forall₂ (fun d n => d.pos = pos r.sourceName n ∧
        DirectiveAt parseLine text n d) ds ns ∧ ns.Pairwise (· < ·) ∧
      ∀ n ∈ ns, r.scanner.line < n ∧ n ≤ r.scanner.line + r.scanner.lines.length := by
  induction fuel generalizing r ds with
  | zero =>
    cases h
    exact ⟨[], .nil, List.Pairwise.nil, nofun⟩
  | succ fuel ih =>
    obtain ⟨⟨more, r'⟩, hn, h⟩ := bind_eq_ok.mp h
    obtain ⟨hsc, hsrc, ht, -⟩ := next_scanned parseLine hn
    cases more
    · cases h
      exact ⟨[], .nil, List.Pairwise.nil, nofun⟩
    obtain ⟨ds', h', rfl⟩ := map_eq_ok.mp h
    obtain ⟨-, n, hn₁, hn₂, hpos, hdir⟩ := ht rfl
    obtain ⟨ns, hns, hsorted, hbound⟩ := ih (hsc.drop htext) h'
    have hsum := hsc.line_add_length
    refine ⟨n :: ns, .cons ⟨hpos, hdir text htext⟩ (hsrc ▸ hns), List.pairwise_cons.mpr
      ⟨fun m hm => by have := hbound m hm; omega, hsorted⟩, fun m hm => ?_⟩
    rcases List.mem_cons.mp hm with rfl | hm
    · omega
    · have := hbound m hm
      omega

/-- **The driver loop ends, and reports each block at the line of its directive.** For every
text and every `parse_line`, calling `next` until it returns `false` stops, or panics, within one
call more than the text has lines: allowing more calls gives the same result. The blocks it reads
are reported at line numbers of the text, in increasing order, and the line each block is
reported at is its directive: not a comment, and read by `parse_line`, with the lines it is
wrapped over, as the block's command and arguments. -/
theorem nextAll_ends (sourceName : Str) (text : List Str) :
    (∀ fuel, text.length < fuel → nextAll parseLine fuel (.new sourceName text) =
      nextAll parseLine (text.length + 1) (.new sourceName text)) ∧
    ∀ ds, nextAll parseLine (text.length + 1) (.new sourceName text) = .ok ds →
      ∃ ns : List ℕ, List.Forall₂ (fun d n => d.pos = pos sourceName n ∧
          DirectiveAt parseLine text n d) ds ns ∧
        ns.Pairwise (· < ·) ∧ ∀ n ∈ ns, 1 ≤ n ∧ n ≤ text.length := by
  refine ⟨fun fuel hf => nextAll_congr parseLine hf (Nat.lt_succ_self _), fun ds h => ?_⟩
  obtain ⟨ns, hns, hsorted, hbound⟩ := nextAll_pos parseLine text rfl h
  exact ⟨ns, hns, hsorted, fun n hn => by simpa [TestDataReader.new] using hbound n hn⟩

end

theorem nextAll_ends_example :
    (∀ fuel, (["a", "", "b", "x"].map String.toList).length < fuel →
      nextAll (fun l => some (l, ([] : List Unit))) fuel
          (.new "t".toList (["a", "", "b", "x"].map String.toList)) =
        nextAll (fun l => some (l, ([] : List Unit)))
          ((["a", "", "b", "x"].map String.toList).length + 1)
          (.new "t".toList (["a", "", "b", "x"].map String.toList))) ∧
    ∃ ds, nextAll (fun l => some (l, ([] : List Unit)))
        ((["a", "", "b", "x"].map String.toList).length + 1)
        (.new "t".toList (["a", "", "b", "x"].map String.toList)) = .ok ds ∧
      ∃ ns : List ℕ, List.Forall₂ (fun d n => d.pos = pos "t".toList n ∧
          DirectiveAt (fun l => some (l, ([] : List Unit)))
            (["a", "", "b", "x"].map String.toList) n d) ds ns ∧
        ns.Pairwise (· < ·) ∧
        ∀ n ∈ ns, 1 ≤ n ∧ n ≤ (["a", "", "b", "x"].map String.toList).length :=
  ⟨(nextAll_ends (fun l => some (l, ([] : List Unit))) "t".toList
      (["a", "", "b", "x"].map String.toList)).1, _, rfl,
    (nextAll_ends (fun l => some (l, ([] : List Unit))) "t".toList
      (["a", "", "b", "x"].map String.toList)).2 _ rfl⟩

end RaftProofs.Datadriven
