import LexScope.Proofs.Text.Case

/-!
# Forms in either case

The bytes that shape a document are no letters, and the letters that choose a dispatched reading are
compared in lower case. So each function of the reader gives the same answer for some bytes and for
these bytes in lower case. Two documents that differ in the case of letters are the same in lower
case, and so have the same lexemes, the same layout, the same elements and the same symbols.
-/

namespace LexScope

open Byte Utf8

variable (bytes : List UInt8)

private theorem closing?_map_toLower {mark : UInt8} (hmark : isLetter mark = false) :
    closing? mark (bytes.map toLower) = closing? mark bytes := by
  fun_induction closing? mark bytes with
  | case1 => rfl
  | case2 b hb => simp [closing?, toLower_beq hmark, hb]
  | case3 b hb => simp [closing?, toLower_beq hmark, hb]
  | case4 b c rest hb => simp [closing?, toLower_beq hmark, hb]
  | case5 b c rest hb hescape ih =>
    simp [closing?, toLower_beq hmark, toLower_beq (c := backslash) rfl, hb, hescape, ih]
  | case6 b c rest hb hescape ih =>
    rw [List.map_cons] at ih
    simp [closing?, toLower_beq hmark, toLower_beq (c := backslash) rfl, hb, hescape, ih]

private theorem blockEnd?_map_toLower (depth : Nat) :
    blockEnd? depth (bytes.map toLower) = blockEnd? depth bytes := by
  fun_induction blockEnd? depth bytes with
  | case1 a b rest hend =>
    simp (disch := decide) [blockEnd?, toLower_beq, hend]
  | case2 a b rest hend depth ih =>
    simp (disch := decide) [blockEnd?, toLower_beq, hend, ih]
  | case3 depth a b rest hend hstart ih =>
    simp (disch := decide) only [List.map_cons, blockEnd?, toLower_beq, hend, hstart, if_true,
      Bool.false_eq_true, if_false, ih]
  | case4 depth a b rest hend hstart ih =>
    rw [List.map_cons] at ih
    simp (disch := decide) only [List.map_cons, blockEnd?, toLower_beq, hend, hstart,
      Bool.false_eq_true, if_false, ih]
  | case5 bytes depth hshort =>
    rcases bytes with _ | ⟨a, _ | ⟨b, rest⟩⟩
    · rfl
    · rfl
    · exact absurd rfl (hshort a b rest)

private theorem plainAtomLength_map_toLower (inBars : Bool) :
    plainAtomLength inBars (bytes.map toLower) = plainAtomLength inBars bytes := by
  fun_induction plainAtomLength inBars bytes with
  | case1 => rfl
  | case2 inBars b hb | case3 inBars b hb =>
    simp (disch := decide) only [List.map_cons, List.map_nil, plainAtomLength, bne, toLower_beq,
      isDelimiter_toLower] at hb ⊢
    simp only [hb]; rfl
  | case4 inBars b c rest hb ih =>
    simp (disch := decide) only [List.map_cons, plainAtomLength, toLower_beq, hb, if_true, ih]
  | case5 inBars b c rest hb hbar ih =>
    rw [List.map_cons] at ih
    simp (disch := decide) only [List.map_cons, plainAtomLength, toLower_beq, hb, hbar, if_true,
      Bool.false_eq_true, if_false, ih]
  | case6 inBars b c rest hb hbar hdelimiter =>
    simp (disch := decide) only [List.map_cons, plainAtomLength, toLower_beq, isDelimiter_toLower,
      hb, hbar, hdelimiter, if_true, Bool.false_eq_true, if_false]
  | case7 inBars b c rest hb hbar hdelimiter ih =>
    rw [List.map_cons] at ih
    simp (disch := decide) only [List.map_cons, plainAtomLength, toLower_beq, isDelimiter_toLower,
      hb, hbar, hdelimiter, Bool.false_eq_true, if_false, ih]

private theorem atomLength_map_toLower : atomLength (bytes.map toLower) = atomLength bytes := by
  fun_cases atomLength bytes with
  | case1 a b hliteral =>
    simp (disch := decide) only [List.map_cons, List.map_nil, atomLength, toLower_beq, hliteral,
      if_true]
  | case2 a b hliteral c rest =>
    simp (disch := decide) only [List.map_cons, atomLength, toLower_beq, hliteral, if_true,
      plainAtomLength_map_toLower]
  | case3 a b rest hliteral =>
    simp (disch := decide) only [List.map_cons, atomLength, toLower_beq, hliteral,
      Bool.false_eq_true, if_false]
    exact plainAtomLength_map_toLower (a :: b :: rest) false
  | case4 bytes hshort =>
    rcases bytes with _ | ⟨a, _ | ⟨b, rest⟩⟩
    · rfl
    · exact plainAtomLength_map_toLower [a] false
    · exact absurd rfl (hshort a b rest)

private theorem head?_map_toLower_beq {c : UInt8} (hc : isLetter c = false) :
    ((bytes.map toLower).head? == some c) = (bytes.head? == some c) := by
  cases bytes with
  | nil => rfl
  | cons b rest => exact toLower_beq hc b

private theorem markerRun_map_toLower : markerRun (bytes.map toLower) = markerRun bytes := by
  induction bytes with
  | nil => rfl
  | cons b rest ih =>
    simp (disch := decide) only [List.map_cons, markerRun, isMarker_toLower, toLower_beq,
      head?_map_toLower_beq, ih]

private theorem Target.after_map_toLower (width : Nat) :
    Target.after width (bytes.map toLower) = Target.after width bytes := by
  simp only [Target.after, markerRun_map_toLower, ← List.map_drop]
  cases bytes.drop (markerRun bytes) with
  | nil => rfl
  | cons b rest =>
    have hatom := atomLength_map_toLower (b :: rest)
    rw [List.map_cons] at hatom
    simp (disch := decide) only [List.map_cons, toLower_beq, hatom]

private theorem length_takeWhile_map_toLower :
    ((bytes.map toLower).takeWhile (· != newline)).length =
      (bytes.takeWhile (· != newline)).length := by
  rw [List.takeWhile_map, List.length_map]
  congr 2
  funext b
  simp (disch := decide) [bne, toLower_beq]

private theorem LexemeKind.read_hash_map_toLower (rest : List UInt8) :
    LexemeKind.read hash (rest.map toLower) = LexemeKind.read hash rest := by
  cases rest with
  | nil => rfl
  | cons c rest =>
    have hatom : atomLength (hash :: toLower c :: rest.map toLower) =
        atomLength (hash :: c :: rest) := atomLength_map_toLower (hash :: c :: rest)
    rw [List.map_cons, read_hash, read_hash, hatom, blockEnd?_map_toLower]
    simp (disch := decide) only [toLower_beq, List.length_cons, List.length_map]

private theorem LexemeKind.read_comma_map_toLower (rest : List UInt8) :
    LexemeKind.read Byte.comma (rest.map toLower) = LexemeKind.read Byte.comma rest := by
  cases rest with
  | nil => rfl
  | cons c rest =>
    rw [List.map_cons, read_comma, read_comma, ← List.map_cons, Target.after_map_toLower,
      Target.after_map_toLower]
    simp (disch := decide) only [toLower_beq]

/-- A lexeme is the same in either case. -/
theorem LexemeKind.read_map_toLower (b : UInt8) (rest : List UInt8) :
    LexemeKind.read (toLower b) (rest.map toLower) = LexemeKind.read b rest := by
  have hstring : LexemeKind.read doubleQuote (rest.map toLower) =
      LexemeKind.read doubleQuote rest := by
    rw [read_doubleQuote, closing?_map_toLower rest rfl, List.length_map, read_doubleQuote]
  have hname : LexemeKind.read bar (rest.map toLower) = LexemeKind.read bar rest := by
    rw [read_bar_eq, closing?_map_toLower rest rfl, List.length_map, read_bar_eq]
  rcases Byte.plain_or_shapes b with h | rfl | rfl | rfl | rfl | rfl | rfl | rfl | rfl | rfl | rfl
  · have h' : isPlain (toLower b) = true ∨ isWhitespace (toLower b) = true := by
      simpa (disch := decide) only [isPlain, bne, toLower_beq, isDelimiter_toLower,
        isWhitespace_toLower] using h
    rw [LexemeKind.read_plain h, LexemeKind.read_plain h']
  · exact congrArg (Prod.mk comment) (length_takeWhile_map_toLower rest)
  · exact hstring
  · exact LexemeKind.read_hash_map_toLower rest
  · exact hname
  · rfl
  · rfl
  · rfl
  · exact congrArg (fun target => (marker .quote target, 0)) (Target.after_map_toLower rest 1)
  · exact congrArg (fun target => (marker .template target, 0)) (Target.after_map_toLower rest 1)
  · exact LexemeKind.read_comma_map_toLower rest

private theorem lexemesFrom_map_toLower (pos : Nat) :
    lexemesFrom pos (bytes.map toLower) = lexemesFrom pos bytes := by
  fun_induction lexemesFrom pos bytes with
  | case1 => rw [List.map_nil, lexemesFrom]
  | case2 pos b rest kind more hread width ih =>
    rw [List.map_cons, lexemesFrom, LexemeKind.read_map_toLower, hread, List.length_map]
    simp only [← List.map_drop]
    rw [ih]

/-- The layout does not depend on the case of the letters. -/
theorem Layout.ofBytes_map_toLower : Layout.ofBytes (bytes.map toLower) = Layout.ofBytes bytes := by
  simp only [Layout.ofBytes, lexemes, lexemesFrom_map_toLower, List.length_map]

/-! ## Elements -/

private theorem leadingMarkers_map_toLower :
    leadingMarkers (bytes.map toLower) = leadingMarkers bytes := by
  induction h : bytes.length using Nat.strongRecOn generalizing bytes with
  | ind n ih =>
    match bytes, h with
    | [], _ => rfl
    | [b], _ =>
      simp (disch := decide) only [List.map_cons, List.map_nil, leadingMarkers, toLower_beq]
    | b :: c :: rest, h =>
      have hnext := ih (rest.length + 1) (by simp at h; omega) (c :: rest) rfl
      have hrest := ih rest.length (by simp at h; omega) rest rfl
      rw [List.map_cons] at hnext
      simp (disch := decide) only [List.map_cons, leadingMarkers, toLower_beq, hnext, hrest]

section Elements

variable (layout : Layout) (stop pos : Nat)

private theorem Reading.datum_map_toLower (width : Nat) (quoted : Bool) (d : UInt8)
    (rest : List UInt8) :
    Reading.datum layout stop pos width quoted (toLower d) (rest.map toLower) =
      Reading.datum layout stop pos width quoted d rest := by
  have hatom := atomLength_map_toLower (d :: rest)
  rw [List.map_cons] at hatom
  simp (disch := decide) only [Reading.datum, toLower_beq, head?_map_toLower_beq, hatom]

private theorem Reading.step_map_toLower (b : UInt8) (rest : List UInt8) :
    Reading.step layout stop pos (toLower b) (rest.map toLower) =
      Reading.step layout stop pos b rest := by
  simp only [Reading.step, isWhitespace_toLower, ← List.map_cons, leadingMarkers_map_toLower,
    ← List.map_drop]
  cases (b :: rest).drop (leadingMarkers (b :: rest)).1 with
  | nil => rfl
  | cons d tail => simp only [List.map_cons, Reading.datum_map_toLower]

private theorem readings_map_toLower :
    readings layout stop pos (bytes.map toLower) = readings layout stop pos bytes := by
  fun_induction readings layout stop pos bytes with
  | case1 => rw [List.map_nil, readings]
  | case2 pos b rest hstep => rw [List.map_cons, readings, Reading.step_map_toLower, hstep]
  | case3 pos b rest read more hstep ih =>
    rw [List.map_cons, readings, Reading.step_map_toLower, hstep]
    simp only [← List.map_drop]
    rw [ih]

/-- The extents of the elements do not depend on the case of the letters. -/
theorem elementsBetween_map_toLower :
    elementsBetween (bytes.map toLower) layout pos stop =
      elementsBetween bytes layout pos stop := by
  simp only [elementsBetween, window, List.length_map, ← List.map_take, ← List.map_drop,
    readings_map_toLower]

end Elements

/-! ## Words -/

private theorem dispatchLength_map_toLower (pairs : PairIndex) (pos : Nat) (rest : List UInt8) :
    dispatchLength pairs pos (rest.map toLower) = dispatchLength pairs pos rest := by
  have htake : ((rest.map toLower).takeWhile isDigit).length = (rest.takeWhile isDigit).length := by
    rw [List.takeWhile_map, List.length_map]
    congr 2
    funext b
    simp
  have hdrop : (rest.map toLower).dropWhile isDigit = (rest.dropWhile isDigit).map toLower := by
    rw [List.dropWhile_map]
    congr 2
    funext b
    simp
  have hatom : atomLength (hash :: rest.map toLower) = atomLength (hash :: rest) :=
    atomLength_map_toLower (hash :: rest)
  simp only [dispatchLength, htake, hdrop, hatom]
  cases rest.dropWhile isDigit with
  | nil => rfl
  | cons d tail => simp only [List.map_cons, toLower_toLower, atomLength_map_toLower]

/-- The words of a text in lower case are its words in lower case. -/
theorem wordsFrom_map_toLower (pairs : PairIndex) (skip : SpanSet) (pos : Nat) :
    wordsFrom pairs skip pos (bytes.map toLower) =
      (wordsFrom pairs skip pos bytes).map fun word => (word.1, word.2.map toLower) := by
  fun_induction wordsFrom pairs skip pos bytes with
  | case1 => rw [List.map_nil, wordsFrom, List.map_nil]
  | case2 pos b rest s hspan ih =>
    rw [List.map_cons, wordsFrom, hspan, ← ih]
    simp only [List.map_drop]
  | case3 pos b rest hspan hdelimiter ih =>
    rw [List.map_cons, wordsFrom, hspan, ← ih]
    simp only [isDelimiter_toLower, hdelimiter, if_true]
  | case4 pos b rest hspan hdelimiter hhash more ih =>
    rw [List.map_cons, wordsFrom, hspan, ← ih]
    simp (disch := decide) only [isDelimiter_toLower, hdelimiter, toLower_beq, hhash, if_true,
      Bool.false_eq_true, if_false, dispatchLength_map_toLower, List.map_drop, more]
  | case5 pos b rest hspan hdelimiter hhash length ih =>
    have hlength : atomLength (toLower b :: rest.map toLower) = length :=
      atomLength_map_toLower (b :: rest)
    rw [List.map_cons, wordsFrom, hspan, List.map_cons, ← ih]
    simp (disch := decide) only [isDelimiter_toLower, hdelimiter, toLower_beq, hhash,
      Bool.false_eq_true, if_false, hlength, List.map_drop, List.map_take, List.map_cons]

/-- A symbol is the same in either case. -/
theorem Symbol.ofWord_map_toLower (word : Span × List UInt8) :
    Symbol.ofWord (word.1, word.2.map toLower) = Symbol.ofWord word := by
  have hlower : lowerAscii (String.ofList (decode (word.2.map toLower))) =
      lowerAscii (String.ofList (decode word.2)) := by
    rw [lowerAscii, lowerAscii, String.toList_ofList, String.toList_ofList, decode_map_toLower]
  have hsymbol := congrArg isSymbolText hlower
  have hname := congrArg lowerCase hlower
  rw [isSymbolText_lowerAscii, isSymbolText_lowerAscii] at hsymbol
  rw [lowerCase_lowerAscii, lowerCase_lowerAscii] at hname
  simp only [Symbol.ofWord, hsymbol, hname]

/-- The extents of the symbols do not depend on the case of the letters. -/
theorem Source.symbols_map_toLower (layout : Layout) :
    Source.symbols ⟨bytes.map toLower, layout⟩ = Source.symbols ⟨bytes, layout⟩ := by
  simp only [Source.symbols, Source.words, wordsFrom_map_toLower, List.filterMap_map,
    Function.comp_def, Symbol.ofWord_map_toLower]

end LexScope
