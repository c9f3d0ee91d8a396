import LexScope.Proofs.Binding.Heads
import LexScope.Proofs.Binding.Lookup
import LexScope.Proofs.Binding.Siblings
import LexScope.Proofs.Form.SexpDocument

/-!
# The grammar of loops

A loop as its writer means it: clauses of words, patterns and expressions. This file says how a loop
is printed and which names it binds, and that the bindings collected from the printed loop are those
names, each visible from its own end to the end of the loop.

What is printed comes in parts. A part moves the state in which the next one is read, and the parts
of a clause make a run from one state where anything may come to another. Only whether a chain of
variables lasts is carried from clause to clause.
-/

namespace LexScope.LoopGrammar

open Byte Utf8 Loop

/-! ## Words -/

/-- The words at which the state changes. -/
def loopWords : List String :=
  ["for", "as", "with", "and", "into", "named", "using"] ++ clauseWords

/-- The words of the grammar. -/
def keywords : List String :=
  ["loop", "named", "for", "as", "with", "and", "=", "in", "being", "the", "hash-keys", "of",
    "using", "hash-value", "collect", "sum", "into", "when", "unless", "if", "while", "until",
    "repeat", "do"]

/-- The words that start a chain of variables. -/
def openers : List String := ["for", "as", "with"]

/-- The words of the grammar that end a chain of variables. -/
def closers : List String :=
  ["collect", "sum", "when", "unless", "if", "while", "until", "repeat", "do"]

/-- The words of the grammar that are not words of loops. -/
def fillers : List String := ["=", "in", "being", "the", "hash-keys", "of"]

/-- One of some words. -/
structure OneOf (words : List String) where
  /-- The word. -/
  text : String
  /-- It is one of them. -/
  mem : text ∈ words

private theorem OneOf.mem_of_subset {words others : List String} (w : OneOf words)
    (h : words ⊆ others) : w.text ∈ others := h w.mem

/-- A word of the grammar. -/
abbrev Keyword := OneOf keywords

private theorem isPlain_of_mem_keywords : ∀ text ∈ keywords,
    text.toList ≠ [] ∧ ∀ b ∈ encode text.toList, isPlain b = true := by
  have hall : (keywords.all fun text => !text.toList.isEmpty &&
      (encode text.toList).all isPlain) = true := by decide
  simpa using hall

private theorem wordOf_of_mem_keywords : ∀ text ∈ keywords, wordOf text = text := by
  decide

/-- The word as it is printed. -/
def OneOf.word (k : Keyword) : Word where
  chars := k.text.toList
  nonempty := (isPlain_of_mem_keywords k.text k.mem).1
  plain := (isPlain_of_mem_keywords k.text k.mem).2

/-- The word as one of the grammar. -/
def OneOf.keyword {words : List String} (w : OneOf words) (h : words ⊆ keywords) : Keyword :=
  ⟨w.text, w.mem_of_subset h⟩

/-- A name: a plain symbol that is no constant and no word of loops. -/
structure Name where
  /-- The name as it is printed. -/
  word : Word
  /-- It can be bound. -/
  bindable : isBindable (lowerCase word.text) = true
  /-- It is not taken for a word of loops. -/
  noLoopWord : wordOf word.text ∉ loopWords

/-! ## Syntax -/

/-- What a variable clause binds. -/
inductive Pattern where
  /-- A name. -/
  | name (x : Name)
  /-- Patterns in brackets. -/
  | list (ps : List Pattern)

/-- An expression. -/
inductive Expr where
  /-- A decimal number. -/
  | number (n : Nat)
  /-- A symbol, or a number that is no row of digits. It is not taken for a word of loops. -/
  | atom (w : Word) (h : wordOf w.text ∉ loopWords)
  /-- A call `(f e ...)`. The first word may be any one. -/
  | call (f : Word) (args : List Expr)

/-- A clause of a loop. -/
inductive Clause where
  /-- `named x` -/
  | named (x : Name)
  /-- `for p = e and q = d ...`, where the first relation may be `in`. -/
  | iterate (w : OneOf ["for", "as"]) (p : Pattern) (relation : OneOf ["=", "in"]) (e : Expr)
      (more : List (Pattern × Expr))
  /-- `with p = e and q = d ...` -/
  | assign (p : Pattern) (e : Expr) (more : List (Pattern × Expr))
  /-- `for p being the hash-keys of e using (hash-value x)` -/
  | hashKeys (p : Pattern) (e : Expr) (x : Name)
  /-- `collect e`, perhaps `into x` -/
  | accumulate (w : OneOf ["collect", "sum"]) (e : Expr) (target : Option Name)
  /-- `when test collect e and collect d ...` -/
  | choose (w : OneOf ["when", "unless", "if"]) (test e : Expr) (more : List Expr)
  /-- `while e` -/
  | check (w : OneOf ["while", "until", "repeat"]) (e : Expr)
  /-- `do e ...` -/
  | act (es : List Expr)

/-- What is printed between two spaces of a loop. -/
inductive Part where
  /-- A word of the grammar. -/
  | keyword (k : Keyword)
  /-- An expression. -/
  | expr (e : Expr)
  /-- What is bound. -/
  | target (kind : BindingKind) (p : Pattern)
  /-- The group `(hash-value x)`. -/
  | pairing (x : Name)

namespace Part

/-- A word of the grammar. -/
def word (text : String) (h : text ∈ keywords) : Part := .keyword ⟨text, h⟩

/-- The variables of a chain after its first word. -/
def chain (p : Pattern) (relation : Keyword) (e : Expr) (more : List (Pattern × Expr)) :
    List Part :=
  .target .loopVariable p :: .keyword relation :: .expr e :: more.flatMap fun (q, d) =>
    [word "and" (by decide), .target .loopVariable q, word "=" (by decide), .expr d]

end Part

/-- The parts of a clause. -/
def Clause.parts : Clause → List Part
  | named x => [.word "named" (by decide), .target .loopName (.name x)]
  | iterate w p relation e more =>
    .keyword (w.keyword (by decide)) :: Part.chain p (relation.keyword (by decide)) e more
  | assign p e more => .word "with" (by decide) :: Part.chain p ⟨"=", by decide⟩ e more
  | hashKeys p e x =>
    [.word "for" (by decide), .target .loopVariable p, .word "being" (by decide),
      .word "the" (by decide), .word "hash-keys" (by decide), .word "of" (by decide), .expr e,
      .word "using" (by decide), .pairing x]
  | accumulate w e target =>
    .keyword (w.keyword (by decide)) :: .expr e :: target.toList.flatMap fun x =>
      [.word "into" (by decide), .target .loopVariable (.name x)]
  | choose w test e more =>
    .keyword (w.keyword (by decide)) :: .expr test :: .word "collect" (by decide) :: .expr e ::
      more.flatMap fun d => [.word "and" (by decide), .word "collect" (by decide), .expr d]
  | check w e => [.keyword (w.keyword (by decide)), .expr e]
  | act es => .word "do" (by decide) :: es.map .expr

/-! ## Printing -/

mutual

/-- A pattern as it is printed. -/
def Pattern.sexp : Pattern → Sexp
  | .name x => .word x.word
  | .list ps => .list (Pattern.sexps ps)

/-- Patterns as they are printed. -/
def Pattern.sexps : List Pattern → List Sexp
  | [] => []
  | p :: rest => p.sexp :: Pattern.sexps rest

end

mutual

/-- An expression as it is printed. -/
def Expr.sexp : Expr → Sexp
  | .number n => .number n
  | .atom w _ => .word w
  | .call f args => .list (.word f :: Expr.sexps args)

/-- Expressions as they are printed. -/
def Expr.sexps : List Expr → List Sexp
  | [] => []
  | e :: rest => e.sexp :: Expr.sexps rest

end

/-- A part as it is printed. -/
def Part.sexp : Part → Sexp
  | keyword k => .word k.word
  | expr e => e.sexp
  | target _ p => p.sexp
  | pairing x => .list [.word (OneOf.word ⟨"hash-value", by decide⟩), .word x.word]

/-- A loop as it is printed. -/
def loopForm (cs : List Clause) : Sexp :=
  .list (.word (OneOf.word ⟨"loop", by decide⟩) :: (cs.flatMap Clause.parts).map Part.sexp)

/-! ## Bindings -/

/-- A name printed at an offset. -/
def Name.site (x : Name) (pos : Nat) : NameSite :=
  ⟨lowerCase x.word.text, ⟨pos, pos + (Sexp.word x.word).size⟩⟩

mutual

/-- The names of a pattern printed at an offset, from left to right. -/
def Pattern.names (pos : Nat) : Pattern → List NameSite
  | .name x => [x.site pos]
  | .list ps => Pattern.namesFrom (pos + 1) ps

/-- The names of patterns, the first printed at an offset. -/
def Pattern.namesFrom (pos : Nat) : List Pattern → List NameSite
  | [] => []
  | p :: rest => p.names pos ++ Pattern.namesFrom (pos + p.sexp.size + 1) rest

end

/-- The binding of a name. It is visible from the end of the name to the end of the loop. -/
def binding (form : Pair) (kind : BindingKind) (n : NameSite) : Binding :=
  .lexical n.name n.site kind "loop" ⟨n.site.stop, form.closing⟩ form.span

/-- What a part printed at an offset binds. -/
def Part.bindings (form : Pair) (pos : Nat) : Part → List Binding
  | keyword _ | expr _ => []
  | target kind p => (p.names pos).map (binding form kind)
  | pairing x =>
    let keyword : Sexp := .word (OneOf.word ⟨"hash-value", by decide⟩)
    [binding form .loopVariable (x.site (pos + 1 + keyword.size + 1))]

/-- What parts bind, the first printed at an offset. -/
def Part.bindingsFrom (form : Pair) (pos : Nat) : List Part → List Binding
  | [] => []
  | part :: rest => part.bindings form pos ++ bindingsFrom form (pos + part.sexp.size + 1) rest

/-- What a loop printed at an offset binds, in the order of the text. -/
def bindingsAt (pos : Nat) (cs : List Clause) : List Binding :=
  let keyword : Sexp := .word (OneOf.word ⟨"loop", by decide⟩)
  Part.bindingsFrom ((loopForm cs).pairAt pos) (pos + 1 + keyword.size + 1)
    (cs.flatMap Clause.parts)

/-! ## Words that change nothing -/

variable {src : Source} {form : Pair} {pos : Nat}

private theorem after_of_notMem {word : String} (h : word ∉ loopWords) (st : State) :
    st.after word = st := by
  have hne (w : String) (hw : w ∈ loopWords) : (word == w) = false :=
    beq_eq_false_iff_ne.2 fun heq => h (heq ▸ hw)
  have hclause : word ∉ clauseWords := fun hword => h (List.mem_append_right _ hword)
  simp [State.after, hne "for" (by decide), hne "as" (by decide), hne "with" (by decide),
    hne "and" (by decide), hne "into" (by decide), hne "named" (by decide),
    hne "using" (by decide), hclause]

/-- No word of loops starts with a digit. -/
theorem wordOf_digits (n : Nat) : wordOf (String.ofList (Nat.toDigits 10 n)) ∉ loopWords := by
  have hhead : (loopWords.all fun word => !word.toList.head?.any Char.isDigit) = true := by
    decide
  obtain ⟨c, rest, hdigits⟩ := List.exists_cons_of_ne_nil (Nat.toDigits_ne_nil (b := 10) (n := n))
  have hc : c.isDigit = true :=
    Nat.isDigit_of_mem_toDigits (by decide) (by decide) (hdigits ▸ List.mem_cons_self)
  have hlower : c.toLower = c := by
    have hle : c ≤ '9' := (Bool.and_eq_true_iff.1 hc).2 |> of_decide_eq_true
    unfold Char.toLower
    rw [dif_neg]
    rintro ⟨hupper, -⟩
    exact absurd (Char.le_trans hupper hle) (by decide)
  have hcolon : c ≠ ':' := by
    rintro rfl
    exact absurd hc (by decide)
  have hword : (wordOf (String.ofList (Nat.toDigits 10 n))).toList =
      c :: rest.map Char.toLower := by
    simp only [wordOf, lowerAscii, hdigits, String.toList_ofList, List.map_cons, hlower]
    split
    · next heq => exact absurd (List.cons.inj heq).1 hcolon
    · exact String.toList_ofList
  intro hmem
  have hfalse := List.all_eq_true.1 hhead _ hmem
  rw [hword, List.head?_cons, Option.any_some, hc] at hfalse
  cases hfalse

/-- The node is not taken for a word of loops. -/
def IsSilent (src : Source) (n : Node) : Prop :=
  n.element.isAtom = true → wordOf (src.textAt n) ∉ loopWords

private theorem clauses_cons_of_silent {n : Node} {rest : List Node} (h : IsSilent src n)
    (inChain : Bool) :
    clauses src form ⟨.anything, inChain⟩ (n :: rest) =
      clauses src form ⟨.anything, inChain⟩ rest := by
  rw [clauses]
  simp only
  split
  · next hatom => rw [after_of_notMem (h hatom)]
  · rfl

private theorem clauses_of_silent {nodes : List Node} (h : ∀ n ∈ nodes, IsSilent src n)
    (inChain : Bool) : clauses src form ⟨.anything, inChain⟩ nodes = [] := by
  induction nodes with
  | nil => rw [clauses]
  | cons n rest ih =>
    obtain ⟨hn, hrest⟩ := List.forall_mem_cons.1 h
    rw [clauses_cons_of_silent hn, ih hrest]

/-- No word of the datum is one of loops, but the first one of a list may be any. -/
inductive Silent : Sexp → Prop
  /-- A word. -/
  | word {w : Word} (h : wordOf w.text ∉ loopWords) : Silent (.word w)
  /-- A number. -/
  | number (n : Nat) : Silent (.number n)
  /-- A list of such data. -/
  | list {items : List Sexp} (h : ∀ s ∈ items, Silent s) : Silent (.list items)
  /-- Such data after any word. -/
  | call (f : Word) {items : List Sexp} (h : ∀ s ∈ items, Silent s) :
    Silent (.list (.word f :: items))

private theorem Silent.isSilent {s : Sexp} (h : Silent s) (hat : Sexp.At src pos s) :
    IsSilent src (src.node (s.element pos)) := by
  intro hatom
  cases h with
  | word hw =>
    have htext := hat.textOf_word
    rwa [← htext] at hw
  | number n =>
    have htext : src.textAt (src.node ((Sexp.number n).element pos)) =
        String.ofList (Nat.toDigits 10 n) := slice_of_standsAt hat.printed.stands
    rw [htext]
    exact wordOf_digits n
  | list | call => cases hatom

/-- Nothing is found at the brackets of a list whose items after the first are silent. -/
theorem entriesAt_of_silent {p : Pair} (h : ∀ n ∈ (src.items p).tail, IsSilent src n) :
    src.entriesAt .loop p = [] := by
  rw [Source.entriesAt, List.flatMap_eq_nil_iff]
  intro f hf
  obtain ⟨hat, hcategory⟩ := List.mem_filter.1 hf
  have hpair : f.pair = p := (BindingForm.at?_eq_some (Option.mem_toList.1 hat)).1
  have hhead : f.head = .loop := by
    cases hhead : f.head with
    | loop => rfl
    | _ => simp [hhead, Head.category] at hcategory
  rw [BindingForm.entries, hpair, hhead]
  cases hitems : src.items p with
  | nil => rfl
  | cons first operands =>
    rw [hitems, List.tail_cons] at h
    exact clauses_of_silent h false

/-- What is found in a list is found at its brackets or in its items. -/
theorem found_list {items : List Sexp}
    (hself : src.entriesAt .loop ((Sexp.list items).pairAt pos) = [])
    (hitems : ∀ x ∈ Sexp.place (pos + 1) items,
      (x.2.pairs x.1).flatMap (src.entriesAt .loop) = []) :
    ((Sexp.list items).pairs pos).flatMap (src.entriesAt .loop) = [] := by
  rw [Sexp.pairs_list, List.flatMap_cons, hself, List.nil_append, Sexp.pairsFrom,
    List.flatMap_assoc, List.flatMap_eq_nil_iff]
  exact hitems

private theorem isSilent_of_mem_place {items : List Sexp} (h : ∀ s ∈ items, Silent s)
    (hat : ∀ x ∈ Sexp.place pos items, Sexp.At src x.1 x.2) :
    ∀ n ∈ (Sexp.place pos items).map fun x => src.node (x.2.element x.1), IsSilent src n := by
  rw [List.forall_mem_map]
  exact fun x hx => (h x.2 (Sexp.mem_of_mem_place hx)).isSilent (hat x hx)

private theorem Silent.found {s : Sexp} (h : Silent s) (hat : Sexp.At src pos s) :
    (s.pairs pos).flatMap (src.entriesAt .loop) = [] := by
  induction h generalizing pos with
  | word => rw [Sexp.pairs_word, List.flatMap_nil]
  | number => rw [Sexp.pairs_number, List.flatMap_nil]
  | list h ih =>
    have hinner := hat.inner
    refine found_list (entriesAt_of_silent fun n hn => ?_) fun x hx =>
      ih x.2 (Sexp.mem_of_mem_place hx) (hinner x hx)
    rw [hat.items_pairAt] at hn
    exact isSilent_of_mem_place h hinner n (List.mem_of_mem_tail hn)
  | call f h ih =>
    have hinner := hat.inner
    rw [Sexp.place, List.forall_mem_cons] at hinner
    refine found_list (entriesAt_of_silent fun n hn => ?_) ?_
    · rw [hat.items_pairAt, Sexp.place, List.map_cons, List.tail_cons] at hn
      exact isSilent_of_mem_place h hinner.2 n hn
    · rw [Sexp.place, List.forall_mem_cons, Sexp.pairs_word]
      exact ⟨rfl, fun x hx => ih x.2 (Sexp.mem_of_mem_place hx) (hinner.2 x hx)⟩

mutual

private theorem Pattern.silent : ∀ p : Pattern, Silent p.sexp
  | .name x => by
    rw [Pattern.sexp]
    exact .word x.noLoopWord
  | .list ps => by
    rw [Pattern.sexp]
    exact .list (Pattern.silent_sexps ps)

private theorem Pattern.silent_sexps : ∀ ps : List Pattern, ∀ s ∈ Pattern.sexps ps, Silent s
  | [] => by simp [Pattern.sexps]
  | p :: rest => by
    rw [Pattern.sexps, List.forall_mem_cons]
    exact ⟨p.silent, Pattern.silent_sexps rest⟩

end

mutual

private theorem Expr.silent : ∀ e : Expr, Silent e.sexp
  | .number n => by
    rw [Expr.sexp]
    exact .number n
  | .atom w h => by
    rw [Expr.sexp]
    exact .word h
  | .call f args => by
    rw [Expr.sexp]
    exact .call f (Expr.silent_sexps args)

private theorem Expr.silent_sexps : ∀ es : List Expr, ∀ s ∈ Expr.sexps es, Silent s
  | [] => by simp [Expr.sexps]
  | e :: rest => by
    rw [Expr.sexps, List.forall_mem_cons]
    exact ⟨e.silent, Expr.silent_sexps rest⟩

end

/-- Inside a part nothing is found. -/
theorem Part.found (part : Part) (h : Sexp.At src pos part.sexp) :
    (part.sexp.pairs pos).flatMap (src.entriesAt .loop) = [] := by
  cases part with
  | keyword k => rw [Part.sexp, Sexp.pairs_word, List.flatMap_nil]
  | expr e => exact e.silent.found h
  | target kind p => exact p.silent.found h
  | pairing x =>
    refine Silent.found (.call _ ?_) h
    rw [List.forall_mem_singleton]
    exact .word x.noLoopWord

/-! ## Targets -/

/-- The data are printed one after the other before the closing bracket of the loop. -/
def PlacedIn (src : Source) (form : Pair) (pos : Nat) (items : List Sexp) : Prop :=
  ∀ x ∈ Sexp.place pos items, Sexp.At src x.1 x.2 ∧ x.1 + x.2.size ≤ form.closing

private theorem placedIn_cons {s : Sexp} {rest : List Sexp} :
    PlacedIn src form pos (s :: rest) ↔ (Sexp.At src pos s ∧ pos + s.size ≤ form.closing) ∧
      PlacedIn src form (pos + s.size + 1) rest := by
  rw [PlacedIn, Sexp.place, List.forall_mem_cons, PlacedIn]

private theorem placedIn_of_at {items : List Sexp} (h : Sexp.At src pos (.list items))
    (hfits : pos + (Sexp.list items).size ≤ form.closing + 1) :
    PlacedIn src form (pos + 1) items := by
  intro x hx
  have hplace := Sexp.bounds_of_mem_place hx
  have hsize := Sexp.size_list items
  exact ⟨h.inner x hx, by omega⟩

private theorem bindName_eq {kind : BindingKind} {n : NameSite} (h : n.site.stop ≤ form.closing) :
    bindName form kind n = [.binding .loopBinding (binding form kind n)] := by
  simp [bindName, Entry.lexical, scopeIn, h, binding]

mutual

/-- The names of a pattern are bound. -/
theorem bindTarget_pattern (kind : BindingKind) (pos : Nat) : ∀ p : Pattern,
    Sexp.At src pos p.sexp → pos + p.sexp.size ≤ form.closing →
      bindTarget src form kind (src.node (p.sexp.element pos)) =
        ((p.names pos).map (binding form kind)).map (.binding .loopBinding)
  | .name x, h, hfits => by
    rw [Pattern.sexp] at h hfits
    have hkind : ((Sexp.word x.word).element pos).kind = .atom := rfl
    have hname := h.nameAt_word x.bindable
    rw [Pattern.sexp, Pattern.names]
    rw [Source.node] at hname ⊢
    rw [bindTarget, hkind]
    simp only [hname, Option.toList_some, List.flatMap_singleton]
    exact bindName_eq hfits
  | .list ps, h, hfits => by
    rw [Pattern.sexp] at h hfits
    have hkind : ((Sexp.list (Pattern.sexps ps)).element pos).kind =
        .group ((Sexp.list (Pattern.sexps ps)).pairAt pos) := rfl
    have hquoted : ((Sexp.list (Pattern.sexps ps)).element pos).quoted = false := rfl
    have hitems : src.inside ((Sexp.list (Pattern.sexps ps)).element pos) =
        (Sexp.place (pos + 1) (Pattern.sexps ps)).map fun x => src.node (x.2.element x.1) :=
      h.items_node
    rw [Pattern.sexp, Pattern.names, Source.node, hitems, bindTarget, hkind]
    simp only [hquoted, Bool.false_eq_true, if_false]
    exact bindTargets_patterns kind (pos + 1) ps
      (placedIn_of_at h (Nat.le_succ_of_le hfits))

/-- The names of patterns are bound one after the other. -/
theorem bindTargets_patterns (kind : BindingKind) (pos : Nat) : ∀ ps : List Pattern,
    PlacedIn src form pos (Pattern.sexps ps) →
      bindTargets src form kind
          ((Sexp.place pos (Pattern.sexps ps)).map fun x => src.node (x.2.element x.1)) =
        ((Pattern.namesFrom pos ps).map (binding form kind)).map (.binding .loopBinding)
  | [], _ => by
    rw [Pattern.sexps, Pattern.namesFrom, Sexp.place, List.map_nil, bindTargets]
    rfl
  | p :: rest, h => by
    rw [Pattern.sexps, placedIn_cons] at h
    obtain ⟨⟨hat, hfits⟩, hrest⟩ := h
    rw [Pattern.sexps, Sexp.place, List.map_cons, bindTargets,
      bindTarget_pattern kind pos p hat hfits, bindTargets_patterns kind _ rest hrest,
      Pattern.namesFrom, List.map_append, List.map_append]

end

/-! ## Runs -/

/-- In the first state the part can be read, and what comes after it is read in the second one. -/
inductive Step : State → Part → State → Prop
  /-- A word may change the state. -/
  | keyword {k : Keyword} {inChain : Bool} {st : State}
    (h : State.after ⟨.anything, inChain⟩ k.text = st) :
    Step ⟨.anything, inChain⟩ (.keyword k) st
  /-- An expression stands where anything may come. -/
  | expr (e : Expr) {inChain : Bool} : Step ⟨.anything, inChain⟩ (.expr e) ⟨.anything, inChain⟩
  /-- Where a variable is expected a pattern is taken apart. -/
  | target (p : Pattern) {inChain : Bool} :
    Step ⟨.target, inChain⟩ (.target .loopVariable p) ⟨.anything, inChain⟩
  /-- The name of the loop. -/
  | name (x : Name) {inChain : Bool} :
    Step ⟨.name, inChain⟩ (.target .loopName (.name x)) ⟨.anything, inChain⟩
  /-- A group whose second element is a variable. -/
  | pairing (x : Name) {inChain : Bool} :
    Step ⟨.pairing, inChain⟩ (.pairing x) ⟨.anything, inChain⟩

/-- The parts can be read one after the other, from the first state to the second one. -/
inductive Run : State → List Part → State → Prop
  /-- Nothing is read. -/
  | nil (st : State) : Run st [] st
  /-- One part is read, and then the others. -/
  | cons {st st' st'' : State} {part : Part} {rest : List Part} (h : Step st part st')
    (hrest : Run st' rest st'') : Run st (part :: rest) st''

private theorem Run.append {st st' st'' : State} {parts rest : List Part} (h : Run st parts st')
    (hrest : Run st' rest st'') : Run st (parts ++ rest) st'' := by
  induction h with
  | nil => exact hrest
  | cons hstep _ ih => exact .cons hstep (ih hrest)

/-- Reading a part binds its names and moves the state. -/
theorem clauses_step {st st' : State} {part : Part} (h : Step st part st')
    (hat : Sexp.At src pos part.sexp) (hfits : pos + part.sexp.size ≤ form.closing)
    (rest : List Node) :
    clauses src form st (src.node (part.sexp.element pos) :: rest) =
      (part.bindings form pos).map (.binding .loopBinding) ++ clauses src form st' rest := by
  cases h with
  | @keyword k inChain _ h =>
    have htext : src.textAt (src.node ((Sexp.word k.word).element pos)) = k.text :=
      hat.textOf_word.trans String.ofList_toList
    have hatom : (src.node ((Sexp.word k.word).element pos)).element.isAtom = true := rfl
    rw [Part.sexp, clauses, Part.bindings]
    simp only [hatom, if_true, htext, wordOf_of_mem_keywords k.text k.mem, h, List.map_nil,
      List.nil_append]
  | expr e =>
    rw [Part.bindings, List.map_nil, List.nil_append]
    exact clauses_cons_of_silent (e.silent.isSilent hat) _
  | target p =>
    rw [Part.sexp] at hat hfits
    rw [Part.sexp, clauses, Part.bindings]
    simp only [bindTarget_pattern .loopVariable pos p hat hfits]
  | name x =>
    rw [Part.sexp] at hat hfits
    rw [Part.sexp, clauses, Part.bindings]
    simp only [bindTarget_pattern .loopName pos (.name x) hat hfits]
  | pairing x =>
    have hinner := placedIn_of_at hat (Nat.le_succ_of_le hfits)
    rw [placedIn_cons, placedIn_cons] at hinner
    obtain ⟨-, ⟨hx, hx'⟩, -⟩ := hinner
    have hsecond : (src.node ((Part.pairing x).sexp.element pos)).items[1]? =
        some (src.node ((Sexp.word x.word).element
          (pos + 1 + (Sexp.word (OneOf.word ⟨"hash-value", by decide⟩)).size + 1))) := by
      rw [Part.sexp, Sexp.At.items_node hat]
      rfl
    have hgroup : (src.node ((Part.pairing x).sexp.element pos)).element.group.isSome = true :=
      rfl
    have hbind := bindTarget_pattern .loopVariable _ (.name x) hx hx'
    rw [Pattern.sexp, Pattern.names] at hbind
    rw [clauses, Part.bindings]
    simp only [hgroup, if_true, hsecond, Option.toList_some, List.flatMap_singleton, hbind]
    rfl

/-- Along a run every part binds its names, and nothing else is bound. -/
theorem clauses_run {st st' : State} {parts : List Part} (h : Run st parts st')
    (hat : PlacedIn src form pos (parts.map Part.sexp)) :
    clauses src form st
        ((Sexp.place pos (parts.map Part.sexp)).map fun x => src.node (x.2.element x.1)) =
      (Part.bindingsFrom form pos parts).map (.binding .loopBinding) := by
  induction h generalizing pos with
  | nil st =>
    rw [List.map_nil, Sexp.place, List.map_nil, clauses]
    rfl
  | cons hstep _ ih =>
    rw [List.map_cons, placedIn_cons] at hat
    rw [List.map_cons, Sexp.place, List.map_cons, clauses_step hstep hat.1.1 hat.1.2, ih hat.2,
      Part.bindingsFrom, List.map_append]

/-! ## Clauses -/

section Clauses

variable {inChain : Bool} {w : String}

private theorem after_opener (h : w ∈ openers) :
    State.after ⟨.anything, inChain⟩ w = ⟨.target, true⟩ := by
  revert w inChain
  decide

private theorem after_closer (h : w ∈ closers) :
    State.after ⟨.anything, inChain⟩ w = ⟨.anything, false⟩ := by
  revert w inChain
  decide

private theorem after_filler (h : w ∈ fillers) :
    State.after ⟨.anything, inChain⟩ w = ⟨.anything, inChain⟩ := by
  revert w inChain
  decide

private theorem Run.flatMap {α : Type} {f : α → List Part} {st : State} (h : ∀ a, Run st (f a) st)
    (l : List α) : Run st (l.flatMap f) st := by
  induction l with
  | nil => exact .nil st
  | cons a rest ih =>
    rw [List.flatMap_cons]
    exact (h a).append ih

private theorem run_exprs (es : List Expr) :
    Run ⟨.anything, inChain⟩ (es.map .expr) ⟨.anything, inChain⟩ := by
  rw [List.map_eq_flatMap]
  exact .flatMap (fun e => .cons (.expr e) (.nil _)) es

/-- While a chain lasts, `and` goes on with a variable. -/
theorem run_chain (p : Pattern) {relation : Keyword} (hrelation : relation.text ∈ fillers)
    (e : Expr) (more : List (Pattern × Expr)) :
    Run ⟨.target, true⟩ (Part.chain p relation e more) ⟨.anything, true⟩ := by
  have hand : State.after ⟨.anything, true⟩ "and" = ⟨.target, true⟩ := by decide
  refine .cons (.target p) (.cons (.keyword (after_filler hrelation)) (.cons (.expr e)
    (.flatMap (fun (q, d) => ?_) more)))
  exact .cons (.keyword hand) (.cons (.target q)
    (.cons (.keyword (after_filler (by decide))) (.cons (.expr d) (.nil _))))

/-- Where no chain lasts, `and` changes nothing. -/
theorem run_conjunction (d : Expr) :
    Run ⟨.anything, false⟩ [.word "and" (by decide), .word "collect" (by decide), .expr d]
      ⟨.anything, false⟩ := by
  have hand : State.after ⟨.anything, false⟩ "and" = ⟨.anything, false⟩ := by decide
  exact .cons (.keyword hand) (.cons (.keyword (after_closer (by decide)))
    (.cons (.expr d) (.nil _)))

private theorem run_into (x : Name) :
    Run ⟨.anything, false⟩ [.word "into" (by decide), .target .loopVariable (.name x)]
      ⟨.anything, false⟩ := by
  have hinto : State.after ⟨.anything, false⟩ "into" = ⟨.target, false⟩ := by decide
  exact .cons (.keyword hinto) (.cons (.target (.name x)) (.nil _))

/-- A clause can be read whether or not a chain lasts before it. -/
theorem Clause.run (c : Clause) (inChain : Bool) :
    ∃ lasts, Run ⟨.anything, inChain⟩ c.parts ⟨.anything, lasts⟩ := by
  cases c with
  | named x =>
    have hnamed : State.after ⟨.anything, inChain⟩ "named" = ⟨.name, inChain⟩ := by
      cases inChain <;> decide
    exact ⟨inChain, .cons (.keyword hnamed) (.cons (.name x) (.nil _))⟩
  | iterate w p relation e more =>
    have hw : w.text ∈ openers := w.mem_of_subset (by decide)
    have hrelation : relation.text ∈ fillers := relation.mem_of_subset (by decide)
    exact ⟨true, .cons (.keyword (after_opener hw)) (run_chain p hrelation e more)⟩
  | assign p e more =>
    exact ⟨true, .cons (.keyword (after_opener (by decide))) (run_chain p (by decide) e more)⟩
  | hashKeys p e x =>
    have husing : State.after ⟨.anything, true⟩ "using" = ⟨.pairing, true⟩ := by decide
    exact ⟨true, .cons (.keyword (after_opener (by decide))) (.cons (.target p)
      (.cons (.keyword (after_filler (by decide))) (.cons (.keyword (after_filler (by decide)))
      (.cons (.keyword (after_filler (by decide))) (.cons (.keyword (after_filler (by decide)))
      (.cons (.expr e) (.cons (.keyword husing) (.cons (.pairing x) (.nil _)))))))))⟩
  | accumulate w e target =>
    have hw : w.text ∈ closers := w.mem_of_subset (by decide)
    exact ⟨false, .cons (.keyword (after_closer hw)) (.cons (.expr e) (.flatMap run_into _))⟩
  | choose w test e more =>
    have hw : w.text ∈ closers := w.mem_of_subset (by decide)
    exact ⟨false, .cons (.keyword (after_closer hw)) (.cons (.expr test)
      (.cons (.keyword (after_closer (by decide))) (.cons (.expr e)
        (.flatMap run_conjunction more))))⟩
  | check w e =>
    have hw : w.text ∈ closers := w.mem_of_subset (by decide)
    exact ⟨false, .cons (.keyword (after_closer hw)) (.cons (.expr e) (.nil _))⟩
  | act es =>
    exact ⟨false, .cons (.keyword (after_closer (by decide))) (run_exprs es)⟩

private theorem run_clauses (cs : List Clause) (inChain : Bool) :
    ∃ lasts, Run ⟨.anything, inChain⟩ (cs.flatMap Clause.parts) ⟨.anything, lasts⟩ := by
  induction cs generalizing inChain with
  | nil => exact ⟨inChain, .nil _⟩
  | cons c rest ih =>
    obtain ⟨between, hc⟩ := c.run inChain
    obtain ⟨lasts, hrest⟩ := ih between
    rw [List.flatMap_cons]
    exact ⟨lasts, hc.append hrest⟩

end Clauses

/-! ## Loops -/

/-- Forms of other passes bind no names of loops. -/
theorem binding?_entriesAt {text : String} {p : Pair}
    (hp : p ∈ (Source.ofText text).layout.pairs.pairs) {k : Category} (hk : k ≠ .loop) :
    ∀ e ∈ (Source.ofText text).entriesAt k p, e.binding? .loopBinding = none := by
  intro e he
  obtain ⟨f, hf, he⟩ := List.mem_flatMap.1 he
  obtain ⟨hat, hcategory⟩ := List.mem_filter.1 hf
  have hpair : f.pair = p := (BindingForm.at?_eq_some (Option.mem_toList.1 hat)).1
  obtain ⟨_, _, _, hbinds⟩ :=
    BindingForm.exists_bindsLike (Source.nests_ofText text) (hpair ▸ hp)
  cases e with
  | stepForm s => rfl
  | binding c b =>
    have hc := (hbinds c b he).1
    rw [Entry.binding?, if_neg]
    rintro rfl
    cases hhead : f.head with
    | loop =>
      rw [hhead, beq_iff_eq] at hcategory
      exact hk hcategory.symm
    | _ => simp [hhead, Head.collections] at hc

/-- Where nothing is left out, the names of loops come from the pass over loops alone. -/
theorem loopBindings_ofSource {text : String} {mode : Mode}
    (h : (Source.ofText text).layout.excluded mode = ⟨[]⟩) :
    (Table.ofSource (.ofText text) mode).loopBindings =
      ((Source.ofText text).layout.pairs.pairs.flatMap
        ((Source.ofText text).entriesAt .loop)).filterMap (Entry.binding? .loopBinding) := by
  have hother (k : Category) (hk : k ≠ .loop) :
      ((Source.ofText text).layout.pairs.pairs.flatMap
        ((Source.ofText text).entriesAt k)).filterMap (Entry.binding? .loopBinding) = [] := by
    rw [List.filterMap_eq_nil_iff]
    intro e he
    obtain ⟨p, hp, he⟩ := List.mem_flatMap.1 he
    exact binding?_entriesAt hp hk e he
  have hget := Table.get_ofSource (.ofText text) mode .loopBinding
  rw [Table.found_nothing h] at hget
  simp only [Category.all, List.flatMap_cons, List.flatMap_nil, List.filterMap_append,
    hother .global (by decide), hother .localBinding (by decide),
    hother .localFunction (by decide), hother .singleVariable (by decide), List.nil_append,
    List.append_nil] at hget
  exact hget

/-- The form of a loop binds what its clauses bind. -/
theorem entriesAt_loopForm (cs : List Clause) (h : Sexp.At src pos (loopForm cs)) :
    src.entriesAt .loop ((loopForm cs).pairAt pos) =
      (bindingsAt pos cs).map (.binding .loopBinding) := by
  have hfits : pos + (loopForm cs).size ≤ ((loopForm cs).pairAt pos).closing + 1 := by
    simp only [Sexp.pairAt]
    omega
  have hplaced := placedIn_of_at h hfits
  obtain ⟨-, hparts⟩ := placedIn_cons.1 hplaced
  obtain ⟨lasts, hrun⟩ := run_clauses cs false
  have hclassify : Head.classify (OneOf.word ⟨"loop", by decide⟩).text = some .loop := by rfl
  have hform := BindingForm.at?_word h
  have hitems := h.items_pairAt
  rw [hclassify, Option.map_some] at hform
  rw [Sexp.place, List.map_cons] at hitems
  rw [Source.entriesAt, bindingsAt, ← clauses_run hrun hparts, loopForm, hform]
  simp only [Option.toList_some, List.filter_cons, Head.category, beq_self_eq_true, if_true,
    List.filter_nil, List.flatMap_singleton, BindingForm.entries, hitems]
  rfl

/-- At the brackets of a loop its bindings are found, and inside them nothing. -/
theorem found_loopForm (cs : List Clause) (h : Sexp.At src pos (loopForm cs)) :
    ((loopForm cs).pairs pos).flatMap (src.entriesAt .loop) =
      (bindingsAt pos cs).map (.binding .loopBinding) := by
  have hself := entriesAt_loopForm cs h
  rw [loopForm] at h hself ⊢
  have hinner := h.inner
  have hnested : (Sexp.pairsFrom (pos + 1) (.word (OneOf.word ⟨"loop", by decide⟩) ::
      (cs.flatMap Clause.parts).map Part.sexp)).flatMap (src.entriesAt .loop) = [] := by
    rw [Sexp.pairsFrom, List.flatMap_assoc, List.flatMap_eq_nil_iff]
    intro x hx
    rcases List.mem_cons.1 (Sexp.mem_of_mem_place hx) with hword | hpart
    · rw [hword, Sexp.pairs_word, List.flatMap_nil]
    · obtain ⟨part, -, hpart⟩ := List.mem_map.1 hpart
      have hat := hinner x hx
      rw [← hpart] at hat ⊢
      exact part.found hat
  rw [Sexp.pairs_list, List.flatMap_cons, hself, hnested, List.append_nil]

/-- The names that a document with a loop binds in loops are those of the patterns, the targets of
`into`, the variables of `using` and the names of the loop, in the order of the text. Each one is
visible from its own end to the closing bracket of the loop. -/
theorem loopBindings_analyze (settings : Settings) (cs : List Clause) :
    (analyze settings (Sexp.text [loopForm cs])).table.loopBindings = bindingsAt 0 cs := by
  have hexcluded := Sexp.excluded_document [loopForm cs] settings.collection
  have hat := Sexp.at_document [loopForm cs] (0, loopForm cs) List.mem_cons_self
  have hpairs : (Sexp.document [loopForm cs]).layout.pairs.pairs = (loopForm cs).pairs 0 := by
    rw [Sexp.pairs_document, Sexp.pairsFrom_cons]
    exact List.append_nil _
  have hfound := found_loopForm cs hat
  rw [← hpairs] at hfound
  rw [analyze_eq]
  simp only
  rw [loopBindings_ofSource hexcluded, ← Sexp.document, hfound, List.filterMap_map]
  exact List.filterMap_some

-- The first `and` goes on with a variable, the second one with what is collected.
example :
    let a : Name := ⟨⟨['a'], by decide, List.all_eq_true.1 rfl⟩, by cbv, by decide⟩
    let b : Name := ⟨⟨['b'], by decide, List.all_eq_true.1 rfl⟩, by cbv, by decide⟩
    let a' : Expr := .atom a.word a.noLoopWord
    let b' : Expr := .atom b.word b.noLoopWord
    let cs : List Clause :=
      [.iterate ⟨"for", by decide⟩ (.list [.name a]) ⟨"in", by decide⟩ b' [(.name b, .number 0)],
        .choose ⟨"when", by decide⟩ a' a' [b']]
    Sexp.text [loopForm cs] = "(loop for (a) in b and b = 0 when a collect a and collect b)" ∧
      (bindingsAt 0 cs).map (fun b => (b.name, b.site, b.scope)) =
        [("a", ⟨11, 12⟩, some ⟨12, 59⟩), ("b", ⟨23, 24⟩, some ⟨24, 59⟩)] := by
  cbv

end LexScope.LoopGrammar
