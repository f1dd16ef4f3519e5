import Shader.Proofs.Token.Tiling
import Shader.Report.Render

/-! # The listings of a report

What a report shows of a source. The characters of a source have offsets, and its lines are what stands
between line feeds. For each of its places a report lists the lines that the place is on, with the lines
around them, and marks the characters that belong to the place: by carets under them, or by colors.

* `Span.front`, `Span.inside` and `Span.behind` are the parts of a line in front of a place, in it and
  behind it.
* `listedReport` is a report without colors, with the rows of carets or without them.
* `paintedReport` is a report with colors, where the escape codes can be left out.
* `render_listed` says that these are the reports that are written. -/

namespace Shader

/-! ## Places of characters -/

/-- The characters of a text with the offsets that they start at. -/
def located (offset : Nat) : List Char → List (Nat × Char)
  | [] => []
  | character :: rest => (offset, character) :: located (offset + character.utf8Size) rest

def isLineFeed (place : Nat × Char) : Bool :=
  place.2 == '\n'

def feedsBefore (cut : Nat) (places : List (Nat × Char)) : Nat :=
  places.countP fun place => isLineFeed place && place.1 < cut

section Located

variable {offset cut : Nat} {text front back : List Char} {place : Nat × Char}

theorem located_append (offset : Nat) (front back : List Char) :
    located offset (front ++ back) = located offset front ++ located (offset + byteLength front) back := by
  induction front generalizing offset with
  | nil => rfl
  | cons character front induction => simp [located, induction, Nat.add_assoc]

@[simp] theorem map_snd_located (offset : Nat) (text : List Char) :
    (located offset text).map Prod.snd = text := by
  induction text generalizing offset with
  | nil => rfl
  | cons character text induction => simp [located, induction]

theorem bounds_of_mem_located (isPlace : place ∈ located offset text) :
    offset ≤ place.1 ∧ place.1 + place.2.utf8Size ≤ offset + byteLength text := by
  induction text generalizing offset with
  | nil => cases isPlace
  | cons character text induction =>
    have := character.utf8Size_pos
    rw [byteLength_cons]
    rcases List.mem_cons.1 isPlace with rfl | isPlace
    · dsimp only
      omega
    · have := induction isPlace
      omega

/-- No character is cut in two. -/
def Clear (cut offset : Nat) (text : List Char) : Prop :=
  ∀ place ∈ located offset text, place.1 < cut → place.1 + place.2.utf8Size ≤ cut

theorem takeBytes_eq (clear : Clear cut offset text) :
    takeBytes (cut - offset) text = ((located offset text).filter (·.1 < cut)).map Prod.snd := by
  induction text generalizing offset with
  | nil => rfl
  | cons character text induction =>
    have size := character.utf8Size_pos
    have rest := induction fun place isPlace => clear place (List.mem_cons_of_mem _ isPlace)
    rw [takeBytes, located, List.filter_cons]
    by_cases before : offset < cut
    · have fits : offset + character.utf8Size ≤ cut := clear _ List.mem_cons_self before
      rw [if_pos (by omega), if_pos (by simpa using before), Nat.sub_sub, rest, List.map_cons]
    · rw [if_neg (by omega), if_neg (by simpa using before), ← rest, Nat.sub_eq_zero_of_le (by omega)]
      cases text with
      | nil => rfl
      | cons next text => exact (if_neg (Nat.not_le_of_gt next.utf8Size_pos)).symm

theorem dropBytes_eq (clear : Clear cut offset text) (inside : cut ≤ offset + byteLength text) :
    located (max cut offset) (dropBytes (cut - offset) text) = (located offset text).filter (cut ≤ ·.1) := by
  induction text generalizing offset with
  | nil => rfl
  | cons character text induction =>
    rw [byteLength_cons] at inside
    by_cases before : offset < cut
    · have fits : offset + character.utf8Size ≤ cut := clear _ List.mem_cons_self before
      have rest := induction (fun place isPlace => clear place (List.mem_cons_of_mem _ isPlace)) (by omega)
      rw [located, List.filter_cons, if_neg (by simpa using before), ← rest, dropBytes, takeBytes,
        if_pos (by omega), Nat.sub_sub, Nat.max_eq_left fits, Nat.max_eq_left before.le]
      rfl
    · have size := character.utf8Size_pos
      rw [dropBytes, takeBytes, if_neg (by omega), Nat.max_eq_right (by omega), eq_comm]
      refine List.filter_eq_self.2 fun place isPlace => decide_eq_true ?_
      have := bounds_of_mem_located isPlace
      omega

end Located

/-! ## Lines -/

/-- A text is made of lines with line feeds between them. -/
inductive Splits : Nat → List Char → List SourceLine → Prop
  | last {offset text} (plain : '\n' ∉ text) : Splits offset text [⟨offset, text⟩]
  | feed {offset front back lines} (plain : '\n' ∉ front)
    (rest : Splits (offset + byteLength front + 1) back lines) :
    Splits offset (front ++ '\n' :: back) (⟨offset, front⟩ :: lines)

theorem splits_splitLines (offset : Nat) (text : List Char) : Splits offset text (splitLines offset text) := by
  induction text generalizing offset with
  | nil => exact .last (by simp)
  | cons character text induction =>
    have rest := induction (offset + character.utf8Size)
    rw [splitLines]
    cases isSplit : splitLines (offset + character.utf8Size) text with
    | nil => exact absurd isSplit (splitLines_ne_nil _ _)
    | cons line lines =>
      rw [isSplit] at rest
      dsimp only
      split_ifs with isFeed
      · subst isFeed
        exact @Splits.feed offset [] text _ (by simp) rest
      · have plain {front : List Char} (plain : '\n' ∉ front) : '\n' ∉ character :: front := by
          simpa [plain] using Ne.symm isFeed
        cases rest with
        | last none => exact .last (plain none)
        | feed none rest =>
          refine .feed (plain none) ?_
          rwa [byteLength_cons, ← Nat.add_assoc]

section Lines

variable {offset cut index : Nat} {text front back : List Char} {lines : List SourceLine} {line : SourceLine}

theorem feed_notMem_located (plain : '\n' ∉ text) {place : Nat × Char} (isPlace : place ∈ located offset text) :
    isLineFeed place = false := by
  have isCharacter : place.2 ∈ (located offset text).map Prod.snd := List.mem_map_of_mem isPlace
  rw [map_snd_located] at isCharacter
  exact beq_eq_false_iff_ne.2 fun isFeed => plain (isFeed ▸ isCharacter)

theorem located_feed (offset : Nat) (front back : List Char) : located offset (front ++ '\n' :: back) =
    located offset front ++ (offset + byteLength front, '\n') :: located (offset + byteLength front + 1) back := by
  rw [located_append, located]
  rfl

theorem feedsBefore_plain (cut offset : Nat) (plain : '\n' ∉ text) : feedsBefore cut (located offset text) = 0 :=
  List.countP_eq_zero.2 fun _ isPlace => by simp [feed_notMem_located plain isPlace]

theorem feedsBefore_feed (plain : '\n' ∉ front) : feedsBefore cut (located offset (front ++ '\n' :: back)) =
    (if offset + byteLength front < cut then 1 else 0) +
      feedsBefore cut (located (offset + byteLength front + 1) back) := by
  rw [located_feed, feedsBefore, List.countP_append, ← feedsBefore, feedsBefore_plain cut offset plain,
    List.countP_cons, Nat.zero_add, Nat.add_comm]
  simp [isLineFeed, feedsBefore]

theorem feedsBefore_eq_zero (text : List Char) (outside : cut ≤ offset) : feedsBefore cut (located offset text) = 0 := by
  refine List.countP_eq_zero.2 fun place isPlace => ?_
  have := bounds_of_mem_located isPlace
  simp only [Bool.and_eq_true, decide_eq_true_eq, not_and]
  omega

namespace Splits

theorem map_located (splits : Splits offset text lines) :
    lines.map (fun line => located line.start line.text) = (located offset text).splitOnP isLineFeed := by
  induction splits with
  | last plain =>
    exact (List.splitOnP_eq_singleton fun place isPlace => by
      simp [feed_notMem_located plain isPlace]).symm
  | feed plain _ ih =>
    rw [located_feed, List.map_cons, ih, List.splitOnP_append_cons_of_forall_mem]
    · exact fun place isPlace => by simp [feed_notMem_located plain isPlace]
    · rfl

theorem mem_located (splits : Splits offset text lines) (isLine : line ∈ lines) :
    located line.start line.text ⊆ located offset text := by
  induction splits with
  | last =>
    obtain rfl := List.mem_singleton.1 isLine
    exact List.Subset.refl _
  | feed plain _ ih =>
    rw [located_feed]
    rcases List.mem_cons.1 isLine with rfl | isLine
    · simp
    · exact fun place isPlace => by simp [ih isLine isPlace]

theorem countP_start (splits : Splits offset text lines) : lines.countP (fun line => line.start ≤ cut) =
    if offset ≤ cut then feedsBefore cut (located offset text) + 1 else 0 := by
  induction splits with
  | last plain => simp [feedsBefore_plain cut _ plain, List.countP_singleton]
  | @feed offset front back lines plain _ ih =>
    have none := @feedsBefore_eq_zero (offset + byteLength front + 1) cut back
    rw [List.countP_cons, ih, feedsBefore_feed plain]
    simp only [decide_eq_true_eq]
    split_ifs <;> omega

theorem bounds (splits : Splits offset text lines) (isLine : lines[index]? = some line) :
    (offset ≤ cut → index ≤ feedsBefore cut (located offset text) → line.start ≤ cut) ∧
      (cut ≤ offset + byteLength text → feedsBefore cut (located offset text) ≤ index → cut ≤ line.stop) := by
  induction splits generalizing index with
  | last plain =>
    simp only [List.getElem?_singleton, Option.ite_none_right_eq_some, Option.some.injEq] at isLine
    obtain ⟨rfl, rfl⟩ := isLine
    exact ⟨fun inside _ => inside, fun inside _ => inside⟩
  | @feed offset front back lines plain _ ih =>
    have none := @feedsBefore_eq_zero (offset + byteLength front + 1) cut back
    rw [feedsBefore_feed plain, byteLength_append, byteLength_cons, show '\n'.utf8Size = 1 by decide]
    cases index with
    | zero =>
      obtain rfl : ⟨offset, front⟩ = line := Option.some.inj isLine
      simp only [SourceLine.stop]
      split_ifs <;> omega
    | succ index =>
      have := ih isLine
      split_ifs <;> omega

end Splits

end Lines

/-! ## Places on lines -/

def locatedLines (source : String) : List (List (Nat × Char)) :=
  (located 0 source.toList).splitOnP isLineFeed

def lineAt (source : String) (index : Nat) : List (Nat × Char) :=
  (locatedLines source)[index]?.getD []

/-- The index of the line that a byte is on: the number of line feeds in front of it. -/
def lineOf (source : String) (offset : Nat) : Nat :=
  feedsBefore offset (located 0 source.toList)

def lineText (line : List (Nat × Char)) : String :=
  String.ofList (line.map Prod.snd)

namespace Span

/-- A place starts and ends between characters of a source. -/
structure Within (source : String) (span : Span) : Prop where
  ordered : span.start ≤ span.stop
  starts : String.Pos.Raw.IsValid source ⟨span.start⟩
  stops : String.Pos.Raw.IsValid source ⟨span.stop⟩

section Parts

variable (span : Span) (line : List (Nat × Char))

def front : List (Nat × Char) :=
  line.filter fun place => place.1 < span.start

def inside : List (Nat × Char) :=
  line.filter fun place => span.start ≤ place.1 ∧ place.1 < span.stop

def behind : List (Nat × Char) :=
  line.filter fun place => span.stop ≤ place.1

/-- A caret under each character of a line that belongs to a place, or one caret if none does. -/
def caretRow : String :=
  blanks (span.front line).length ++ carets (max (span.inside line).length 1)

end Parts

variable (span : Span) (source : String) (contextLines index : Nat)

def firstLine : Nat :=
  lineOf source span.start

/-- The line of the last byte of a place, and of the place itself if it has none. -/
def lastLine : Nat :=
  lineOf source (max (span.stop - 1) span.start)

def IsOn : Prop :=
  span.firstLine source ≤ index ∧ index ≤ span.lastLine source

instance : Decidable (span.IsOn source index) :=
  inferInstanceAs (Decidable (_ ∧ _))

def listedTo : Nat :=
  min ((locatedLines source).length - 1) (span.lastLine source + contextLines)

/-- The lines that a place is on, and some lines around them. -/
def listedLines : List Nat :=
  List.range' (span.firstLine source - contextLines)
    (span.listedTo source contextLines + 1 - (span.firstLine source - contextLines))

def listedRow : Row :=
  let line := lineAt source index
  if span.IsOn source index then
    ⟨index + 1, true, (span.front line).map Prod.snd, (span.inside line).map Prod.snd,
      (span.behind line).map Prod.snd⟩
  else ⟨index + 1, false, line.map Prod.snd, [], []⟩

end Span

section Lines

variable {source : String} {span : Span} {contextLines index cut : Nat} {line : SourceLine}

theorem lineIndex_eq_lineOf (source : String) (offset : Nat) :
    lineIndex (sourceLines source) offset = lineOf source offset := by
  rw [lineIndex, sourceLines, (splits_splitLines _ _).countP_start, if_pos (Nat.zero_le _), Nat.add_sub_cancel]
  rfl

theorem lineOf_lt (source : String) (offset : Nat) : lineOf source offset < (sourceLines source).length := by
  have counted := @Splits.countP_start 0 offset _ _ (splits_splitLines 0 source.toList)
  rw [if_pos (Nat.zero_le _)] at counted
  exact Nat.lt_of_succ_le (counted.symm.le.trans List.countP_le_length)

theorem firstLine_le_lastLine : span.firstLine source ≤ span.lastLine source := by
  refine List.countP_mono_left fun place _ found => ?_
  simp only [Bool.and_eq_true, decide_eq_true_eq] at found ⊢
  exact ⟨found.1, Nat.lt_of_lt_of_le found.2 (Nat.le_max_right ..)⟩

theorem lineAt_eq (isLine : (sourceLines source)[index]? = some line) :
    lineAt source index = located line.start line.text := by
  rw [lineAt, locatedLines, ← (splits_splitLines _ _).map_located, List.getElem?_map, ← sourceLines, isLine]
  rfl

theorem length_locatedLines (source : String) : (locatedLines source).length = (sourceLines source).length := by
  rw [locatedLines, ← (splits_splitLines _ _).map_located, List.length_map, sourceLines]

theorem byteLength_toList (source : String) : byteLength source.toList = source.utf8ByteSize := by
  have size := congrArg String.Pos.Raw.byteIdx (@String.rawEndPos_ofList source.toList)
  rw [String.ofList_toList, ← byteLength_eq_utf8Len] at size
  exact size.symm

theorem clear_of_isValid (valid : String.Pos.Raw.IsValid source ⟨cut⟩)
    (isLine : (sourceLines source)[index]? = some line) : Clear cut line.start line.text := by
  intro place isPlace before
  have isPlace := (splits_splitLines _ _).mem_located (List.mem_of_getElem? isLine) isPlace
  obtain ⟨front, back, rfl, isCut⟩ := String.Pos.Raw.isValid_iff_exists_append.1 valid
  have isCut : cut = byteLength front.toList := (congrArg String.Pos.Raw.byteIdx isCut).trans (byteLength_toList _).symm
  rw [String.toList_append, located_append, List.mem_append] at isPlace
  rcases isPlace with inFront | inBack
  · have := bounds_of_mem_located inFront
    omega
  · have := bounds_of_mem_located inBack
    omega

theorem text_rowOf (line : SourceLine) (index first last start stop : Nat) :
    (rowOf line index first last start stop).text = line.text := by
  rw [rowOf]
  dsimp only
  split_ifs <;> simp [Row.text, takeBytes_append_dropBytes]

theorem rowOf_marked {offset first last : Nat} {text : List Char} (ordered : span.start ≤ span.stop)
    (clearStart : Clear span.start offset text) (clearStop : Clear span.stop offset text)
    (above : offset ≤ span.stop) (below : span.start ≤ offset + byteLength text)
    (isOn : first ≤ index ∧ index ≤ last) :
    rowOf ⟨offset, text⟩ index first last span.start span.stop =
      ⟨index + 1, true, (span.front (located offset text)).map Prod.snd,
        (span.inside (located offset text)).map Prod.snd, (span.behind (located offset text)).map Prod.snd⟩ := by
  have isRest := dropBytes_eq clearStart below
  have joined := congrArg byteLength (takeBytes_append_dropBytes (span.start - offset) text)
  have room := byteLength_takeBytes_le (span.start - offset) text
  rw [byteLength_append] at joined
  -- the end of the line cuts nothing either
  have clearRest : Clear (min span.stop (offset + byteLength text)) (max span.start offset)
      (dropBytes (span.start - offset) text) := by
    intro place isPlace
    rw [isRest] at isPlace
    have := clearStop place (List.mem_of_mem_filter isPlace)
    have := bounds_of_mem_located (List.mem_of_mem_filter isPlace)
    omega
  have isMarked := takeBytes_eq clearRest
  have isAfter := congrArg (List.map Prod.snd) (dropBytes_eq clearRest (by omega))
  rw [isRest, List.filter_filter] at isMarked isAfter
  rw [map_snd_located] at isAfter
  rw [rowOf, SourceLine.stop, if_pos ⟨isOn.1, isOn.2, by dsimp only; omega⟩]
  simp only [show max span.start offset - offset = span.start - offset by omega, takeBytes_eq clearStart,
    isMarked, isAfter]
  congr 2
  · refine List.filter_congr fun place isPlace => ?_
    have := bounds_of_mem_located isPlace
    have := place.2.utf8Size_pos
    grind
  · refine List.filter_congr fun place isPlace => ?_
    have := bounds_of_mem_located isPlace
    have := place.2.utf8Size_pos
    grind

end Lines

section Rows

variable {source : String} {span : Span} {contextLines index : Nat} {line : SourceLine}
  (within : span.Within source)

include within

theorem Span.Within.le_size : span.stop ≤ source.utf8ByteSize :=
  within.stops.le_rawEndPos

theorem rowOf_eq (isLine : (sourceLines source)[index]? = some line) :
    rowOf line index (span.firstLine source) (span.lastLine source) span.start span.stop =
      span.listedRow source index := by
  rw [Span.listedRow, lineAt_eq isLine]
  by_cases isOn : span.IsOn source index
  · obtain ⟨ordered, starts, stops⟩ := within
    have size := Span.Within.le_size ⟨ordered, starts, stops⟩
    have above := (@Splits.bounds 0 (max (span.stop - 1) span.start) _ _ _ _ (splits_splitLines _ _) isLine).1
      (Nat.zero_le _) isOn.2
    have below := (@Splits.bounds 0 span.start _ _ _ _ (splits_splitLines _ _) isLine).2
      (by rw [byteLength_toList]; omega) isOn.1
    rw [if_pos isOn]
    exact rowOf_marked ordered (clear_of_isValid starts isLine) (clear_of_isValid stops isLine) (by omega) below
      isOn
  · rw [if_neg isOn, rowOf, if_neg fun marked => isOn ⟨marked.1, marked.2.1⟩, map_snd_located]

theorem lineColumn_eq : lineColumn source span.start =
    (span.firstLine source + 1, (span.front (lineAt source (span.firstLine source))).length + 1) := by
  obtain ⟨line, isLine⟩ : ∃ line, (sourceLines source)[lineOf source span.start]? = some line :=
    ⟨_, List.getElem?_eq_getElem (lineOf_lt source span.start)⟩
  rw [Span.firstLine, lineColumn, Nat.min_eq_left (within.ordered.trans within.le_size), lineIndex_eq_lineOf,
    lineAt_eq isLine]
  simp only [isLine, Option.getD_some, takeBytes_eq (clear_of_isValid within.starts isLine), List.length_map,
    Span.front]

omit within in
theorem map_zipIdx_drop_take {α β : Type} (items : List α) (front count : Nat) (f : α × Nat → β) (g : Nat → β)
    (same : ∀ index item, items[index]? = some item → f (item, index) = g index) :
    ((items.zipIdx.drop front).take count).map f =
      (List.range' front (min count (items.length - front))).map g := by
  refine List.ext_getElem (by simp) fun index inside _ => ?_
  have inside : front + index < items.length := by
    simp only [List.length_map, List.length_take, List.length_drop, List.length_zipIdx] at inside
    omega
  simpa using same (front + index) _ (List.getElem?_eq_getElem inside)

theorem excerpt_eq : excerpt source span contextLines = {
    line := span.firstLine source + 1
    column := (span.front (lineAt source (span.firstLine source))).length + 1
    rows := (span.listedLines source contextLines).map (span.listedRow source) } := by
  have size := within.le_size
  have ordered := within.ordered
  have count : min (span.lastLine source + contextLines + 1 - (span.firstLine source - contextLines))
      ((sourceLines source).length - (span.firstLine source - contextLines)) =
        span.listedTo source contextLines + 1 - (span.firstLine source - contextLines) := by
    have := lineOf_lt source span.start
    rw [Span.listedTo, length_locatedLines]
    omega
  rw [excerpt]
  simp only [Nat.min_eq_left size, Nat.min_eq_left (ordered.trans size), Nat.max_eq_right ordered,
    lineIndex_eq_lineOf, lineColumn_eq within]
  rw [← Span.firstLine, ← Span.lastLine, Span.listedLines, ← count]
  exact congrArg _ (map_zipIdx_drop_take _ _ _ _ _ fun index line isLine => rowOf_eq within isLine)

omit within in
theorem number_listedRow : (span.listedRow source index).number = index + 1 := by
  rw [Span.listedRow]
  split_ifs <;> rfl

theorem gutter_excerpt : (excerpt source span contextLines).gutter =
    (toString (span.listedTo source contextLines + 1)).length := by
  have := lineOf_lt source (max (span.stop - 1) span.start)
  have ordered := @firstLine_le_lastLine source span
  have nonempty : span.firstLine source - contextLines ≤ span.listedTo source contextLines := by
    rw [Span.listedTo, length_locatedLines]
    rw [Span.lastLine] at *
    omega
  rw [excerpt_eq within, Excerpt.gutter, List.getLast?_map, Span.listedLines, List.getLast?_range',
    if_neg (by omega), Option.map_some]
  simp only [number_listedRow]
  congr 3
  omega

theorem lineText_parts (isOn : span.IsOn source index) :
    lineText (span.front (lineAt source index)) ++ lineText (span.inside (lineAt source index)) ++
      lineText (span.behind (lineAt source index)) = lineText (lineAt source index) := by
  have bound : index < (sourceLines source).length := isOn.2.trans_lt (lineOf_lt _ _)
  have isLine := List.getElem?_eq_getElem bound
  have isText := text_rowOf (sourceLines source)[index] index (span.firstLine source) (span.lastLine source)
    span.start span.stop
  rw [rowOf_eq within isLine, Span.listedRow, if_pos isOn, Row.text] at isText
  simp only [lineText, ← String.ofList_append, isText]
  rw [lineAt_eq isLine, map_snd_located]

end Rows

/-! ## Reports -/

section Reports

variable (source : String) (contextLines : Nat) (span : Span)

def listedGutter (label : String) : String :=
  gutterText (toString (span.listedTo source contextLines + 1)).length label

def locationLine : String :=
  s!"  --> {span.firstLine source + 1}:{(span.front (lineAt source (span.firstLine source))).length + 1}"

/-- The lines that are listed for a place, with a row of carets under each line that the place is on. -/
def listing (caretRows : Bool) : List String :=
  (span.listedLines source contextLines).flatMap fun index =>
    (listedGutter source contextLines span (toString (index + 1)) ++ lineText (lineAt source index)) ::
      if caretRows ∧ span.IsOn source index then
        [listedGutter source contextLines span "" ++ span.caretRow (lineAt source index)]
      else []

/-- The lines that are listed for a place, with the characters of the place between escape codes. -/
def painting (escape : String → String) (color : SiteColor) : List String :=
  (span.listedLines source contextLines).map fun index =>
    let line := lineAt source index
    listedGutter source contextLines span (toString (index + 1)) ++
      if span.IsOn source index then
        lineText (span.front line) ++ escape color.paintCode ++ lineText (span.inside line) ++
          escape resetCode ++ lineText (span.behind line)
      else lineText line

variable (diagnostic : Diagnostic)

def listedReport (caretRows : Bool) : String :=
  joinLines (diagnostic.context ++ [diagnostic.rootText] ++ diagnostic.sites.flatMap fun site =>
    locationLine source site.span :: listing source contextLines site.span caretRows)

def paintedReport (escape : String → String) : String :=
  joinLines (diagnostic.context ++ [escape boldCode ++ diagnostic.rootText ++ escape resetCode] ++
    diagnostic.sites.flatMap fun site =>
      locationLine source site.span :: painting source contextLines site.span escape site.color)

end Reports

section Sites

variable {source : String} {contextLines : Nat} {span : Span} (within : span.Within source) (color : SiteColor)

include within

theorem siteLines_plain : siteLines source ⟨contextLines, false⟩ ⟨span, color⟩ =
    locationLine source span :: listing source contextLines span true := by
  rw [siteLines]
  simp only [gutter_excerpt within]
  simp only [excerpt_eq within, Bool.false_eq_true, if_false, List.flatMap_map]
  refine congrArg _ (List.flatMap_congr fun index _ => ?_)
  by_cases isOn : span.IsOn source index
  · rw [← lineText_parts within isOn]
    simp [Span.listedRow, Row.plainLines, Row.plainLine, Row.caretLine, Row.text, Span.caretRow, listedGutter,
      lineText, isOn, String.append_assoc]
  · simp [Span.listedRow, Row.plainLines, Row.plainLine, Row.text, listedGutter, lineText, isOn]

theorem siteLines_painted : siteLines source ⟨contextLines, true⟩ ⟨span, color⟩ =
    locationLine source span :: painting source contextLines span id color := by
  rw [siteLines]
  simp only [gutter_excerpt within]
  simp only [excerpt_eq within, if_true, List.map_map]
  refine congrArg _ (List.map_congr_left fun index _ => ?_)
  by_cases isOn : span.IsOn source index
  · simp [Span.listedRow, Row.paintedLine, listedGutter, lineText, isOn, String.append_assoc]
  · simp [Span.listedRow, Row.paintedLine, Row.plainLine, Row.text, listedGutter, lineText, isOn]

theorem painting_blank :
    painting source contextLines span (fun _ => "") color = listing source contextLines span false := by
  rw [painting, listing, List.map_eq_flatMap]
  refine List.flatMap_congr fun index _ => ?_
  by_cases isOn : span.IsOn source index
  · simp [isOn, lineText_parts within isOn]
  · simp [isOn]

omit within in
theorem length_listedGutter {label : String}
    (fits : label.length ≤ (toString (span.listedTo source contextLines + 1)).length) :
    (listedGutter source contextLines span label).length =
      (toString (span.listedTo source contextLines + 1)).length + 3 := by
  simp only [listedGutter, gutterText, alignRight, blanks, String.length_append, String.length_ofList,
    List.length_replicate]
  rw [Nat.sub_add_cancel fits]
  rfl

end Sites

theorem length_toString_mono {left right : Nat} (ordered : left ≤ right) :
    (toString left).length ≤ (toString right).length := by
  have positive : 0 < (Nat.toDigits 10 right).length := Nat.length_toDigits_pos
  have below := (Nat.length_toDigits_le_iff (by decide) positive).1 (Nat.le_refl (Nat.toDigits 10 right).length)
  simpa [Nat.repr] using (Nat.length_toDigits_le_iff (by decide) positive).2 (Nat.lt_of_le_of_lt ordered below)

/-- A report without colors is a listing with rows of carets, and one with colors is a painting, which is a
listing without rows of carets where the escape codes are left out. The gutter is the same for all lines. -/
theorem render_listed (source : String) (diagnostic : Diagnostic) (contextLines : Nat)
    (within : ∀ site ∈ diagnostic.sites, site.span.Within source) :
    render source diagnostic ⟨contextLines, false⟩ = listedReport source contextLines diagnostic true ∧
      render source diagnostic ⟨contextLines, true⟩ = paintedReport source contextLines diagnostic id ∧
      paintedReport source contextLines diagnostic (fun _ => "") =
        listedReport source contextLines diagnostic false ∧
      ∀ site ∈ diagnostic.sites, ∀ index ∈ site.span.listedLines source contextLines,
        (listedGutter source contextLines site.span (toString (index + 1))).length =
          (listedGutter source contextLines site.span "").length := by
  refine ⟨?_, ?_, ?_, fun site _ index listed => ?_⟩
  · rw [render, listedReport, messageLine,
      List.flatMap_congr fun site isSite => siteLines_plain (within site isSite) site.color]
    rfl
  · rw [render, paintedReport, messageLine,
      List.flatMap_congr fun site isSite => siteLines_painted (within site isSite) site.color]
    rfl
  · rw [paintedReport, listedReport,
      List.flatMap_congr fun site isSite => congrArg _ (painting_blank (within site isSite) site.color)]
    simp
  · have := List.mem_range'_1.1 listed
    rw [length_listedGutter (length_toString_mono (by omega)), length_listedGutter (Nat.zero_le _)]

theorem render_listed_sample :
    (∀ site ∈ [Site.red ⟨3, 10⟩], site.span.Within "é = 1;\n\nx") ∧
      render "é = 1;\n\nx" ⟨.stated .typing "odd", [.red ⟨3, 10⟩], []⟩ ⟨0, false⟩ =
        "Type error: odd\n  --> 1:3\n1 | é = 1;\n  |   ^^^^\n2 | \n  | ^\n3 | x\n  | ^\n" := by
  have within : ∀ site ∈ [Site.red ⟨3, 10⟩], site.span.Within "é = 1;\n\nx" := by
    intro site isSite
    obtain rfl := List.mem_singleton.1 isSite
    exact ⟨by decide, by decide +kernel, by decide +kernel⟩
  exact ⟨within, (render_listed "é = 1;\n\nx" ⟨.stated .typing "odd", [.red ⟨3, 10⟩], []⟩ 0 within).1.trans
    (by decide +kernel)⟩

end Shader
