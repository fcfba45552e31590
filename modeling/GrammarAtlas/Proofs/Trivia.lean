import GrammarAtlas.Proofs.Positions
import GrammarAtlas.Proofs.Tokens
import Mathlib.Data.List.Infix

/-! # Nothing of a text is lost

Cutting a text into tokens leaves out blanks and comments, and reports what begins no token. The
tokens and the reported runs stand one behind the other, and only trivia separates them (`LaidOut`):
`TokenStream.ofChars_laidOut` says so for every text. -/

namespace GrammarAtlas

/-- What means nothing between two tokens; `rest` is the text behind it. The flag says that the last
comment does not close. -/
inductive Trivia (rest : List Char) : Bool → List Char → Prop
  | nil : Trivia rest false []
  | blank {c : Char} {gap : List Char} {unclosed : Bool} (hc : isBlank c)
    (h : Trivia rest unclosed gap) : Trivia rest unclosed (c :: gap)
  /-- Such a comment stops right before the next new line, or at the end of the text. -/
  | line {body gap : List Char} {unclosed : Bool} (hb : '\n' ∉ body)
    (hend : ∀ c ∈ (gap ++ rest).head?, c = '\n') (h : Trivia rest unclosed gap) :
    Trivia rest unclosed ('/' :: '/' :: (body ++ gap))
  /-- Such a comment stops behind the first sign that can close it. -/
  | block {body gap : List Char} {unclosed : Bool} (hb : ¬ ['*', '/'] <:+: body ++ ['*'])
    (h : Trivia rest unclosed gap) :
    Trivia rest unclosed ('/' :: '*' :: (body ++ '*' :: '/' :: gap))
  /-- Without such a sign it goes on to the end of the text. -/
  | unclosed {body : List Char} (hb : ¬ ['*', '/'] <:+: body) (hrest : rest = []) :
    Trivia rest true ('/' :: '*' :: body)

theorem Trivia.blanks {text gap rest : List Char} {unclosed : Bool} (ht : ∀ c ∈ text, isBlank c)
    (h : Trivia rest unclosed gap) : Trivia rest unclosed (text ++ gap) := by
  induction text with
  | nil => exact h
  | cons c text ih =>
    obtain ⟨hc, ht⟩ := List.forall_mem_cons.1 ht
    exact .blank hc (ih ht)

namespace Piece

/-- Wherever the character stands, neither blanks nor a comment nor a token begins with it. -/
def Inert (c : Char) : Prop := ∀ context rest, (read context c rest).1 = .stray

/-- What a piece of each form may look like, with `rest` behind it. -/
inductive Shaped : Form → List Char → List Char → Prop
  | blank {text rest : List Char} (h : ∀ c ∈ text, isBlank c) : Shaped .blank text rest
  | line {body rest : List Char} (hb : '\n' ∉ body) (hend : ∀ c ∈ rest.head?, c = '\n') :
    Shaped (.comment true) ('/' :: '/' :: body) rest
  | block {body rest : List Char} (hb : ¬ ['*', '/'] <:+: body ++ ['*']) :
    Shaped (.comment true) ('/' :: '*' :: (body ++ ['*', '/'])) rest
  | unclosed {body : List Char} (hb : ¬ ['*', '/'] <:+: body) :
    Shaped (.comment false) ('/' :: '*' :: body) []
  | lexeme {kind : Token.Kind} {closed : Bool} {text rest : List Char} (hk : kind ≠ .finish) :
    Shaped (.lexeme kind closed) text rest
  | stray {c : Char} {run rest : List Char} (h : ∀ d ∈ run, Inert d) :
    Shaped .stray (c :: run) rest

theorem take_takeWhile (p : Char → Bool) (cs : List Char) :
    cs.take (cs.takeWhile p).length = cs.takeWhile p :=
  (List.prefix_iff_eq_take.1 (List.takeWhile_prefix p)).symm

theorem drop_takeWhile (p : Char → Bool) (cs : List Char) :
    cs.drop (cs.takeWhile p).length = cs.dropWhile p := by
  have hdrop : (cs.takeWhile p ++ cs.dropWhile p).drop (cs.takeWhile p).length = cs.dropWhile p :=
    List.drop_left
  rwa [List.takeWhile_append_dropWhile] at hdrop

theorem head?_dropWhile_ne (cs : List Char) : ∀ c ∈ (cs.dropWhile (· != '\n')).head?, c = '\n' := by
  intro c hc
  have hnot := List.head?_dropWhile_not (· != '\n') cs
  rw [Option.mem_def.1 hc] at hnot
  simpa using hnot

/-- A comment closes where it first can. -/
theorem commentBody_closed {cs : List Char} (h : (commentBody cs).closed) :
    ∃ body, cs.take (commentBody cs).length = body ++ ['*', '/'] ∧
      ¬ ['*', '/'] <:+: body ++ ['*'] := by
  fun_induction commentBody cs with
  | case1 => cases h
  | case2 => exact ⟨[], rfl, by decide⟩
  | case3 c cs hc ih =>
    obtain ⟨body, htake, hbody⟩ := ih h
    refine ⟨c :: body, by simp [Extent.shift, htake], ?_⟩
    rw [List.cons_append, List.infix_cons_iff]
    rintro (⟨rest, hrest⟩ | hlater)
    · -- A closing sign at `c` would have its slash at the head of `body`, and so of `cs`.
      simp only [List.cons_append, List.nil_append, List.cons.injEq] at hrest
      cases body with
      | nil => simp at hrest
      | cons d body =>
        simp only [List.cons_append, List.cons.injEq] at hrest htake
        obtain ⟨hstar, rfl, -⟩ := hrest
        have hcs := List.take_append_drop (commentBody cs).length cs
        rw [htake] at hcs
        exact hc _ hstar.symm hcs.symm
    · exact hbody hlater

theorem commentBody_unclosed {cs : List Char} (h : (commentBody cs).closed = false) :
    (commentBody cs).length = cs.length ∧ ¬ ['*', '/'] <:+: cs := by
  fun_induction commentBody cs with
  | case1 => exact ⟨rfl, by decide⟩
  | case2 => cases h
  | case3 c cs hc ih =>
    obtain ⟨hlength, hcs⟩ := ih h
    refine ⟨by simp [Extent.shift, hlength], ?_⟩
    rw [List.infix_cons_iff]
    rintro (⟨rest, hrest⟩ | hlater)
    · simp only [List.cons_append, List.nil_append, List.cons.injEq] at hrest
      exact hc _ hrest.1.symm hrest.2.symm
    · exact hcs hlater

theorem isNumeric_of_isDigit {c : Char} (h : c.isDigit) : isNumeric c := by
  have hdigits : ∀ n < 10, CharRange.holds Numeric.ranges (48 + n) := by decide +kernel
  simp only [Char.isDigit, Bool.and_eq_true, decide_eq_true_eq] at h
  have hlow : 48 ≤ c.toNat := h.1
  have hhigh : c.toNat ≤ 57 := h.2
  have hc := hdigits (c.toNat - 48) (by omega)
  rwa [Nat.add_sub_cancel' hlow] at hc

/-- What carries a stray run on could not begin another piece. -/
theorem inert_of_isStray {c : Char} (h : isStray c) : Inert c := by
  intro context rest
  simp only [isStray, continuesName, Bool.not_eq_true', Bool.or_eq_false_iff] at h
  obtain ⟨⟨hblank, ⟨halpha, hnumeric⟩, hunderscore⟩, hsigns⟩ := h
  have hdigit : c.isDigit = false := by
    by_contra hd
    rw [isNumeric_of_isDigit (by simpa using hd)] at hnumeric
    cases hnumeric
  have hsign {d : Char} (hd : "'[]\x7b\x7d<>:;,()|=+?*~.-#@/".toList.contains d) : c ≠ d := by
    rintro rfl
    rw [hd] at hsigns
    cases hsigns
  have hslash : c ≠ '/' := hsign (by decide)
  have hname : (isAlphabetic c || decide (c = '_')) = false := by
    simpa [halpha] using hunderscore
  simp only [read, hblank, hslash, hname, hdigit, decide_false, Bool.false_and, Bool.false_eq_true,
    if_false]
  unfold signed
  split
  case h_21 => rfl
  all_goals exact absurd rfl (hsign (by decide))

theorem strayRun_shaped (c : Char) (cs : List Char) :
    Shaped (strayRun cs).1 (c :: cs.take (strayRun cs).2) (cs.drop (strayRun cs).2) := by
  refine .stray fun d hd => inert_of_isStray ?_
  rw [strayRun, take_takeWhile] at hd
  exact List.mem_takeWhile_imp hd

theorem read_shaped (context : Context) (c : Char) (cs : List Char) :
    Shaped (read context c cs).1 (c :: cs.take (read context c cs).2)
      (cs.drop (read context c cs).2) := by
  unfold read
  split
  · rename_i hc
    rw [take_takeWhile]
    refine .blank fun d hd => ?_
    rcases List.mem_cons.1 hd with rfl | hd
    · exact hc
    · exact List.mem_takeWhile_imp hd
  split
  · rename_i hc
    simp only [Bool.and_eq_true, decide_eq_true_eq] at hc
    obtain ⟨rfl, hhead⟩ := hc
    obtain ⟨cs, rfl⟩ := List.head?_eq_some_iff.1 hhead
    rw [take_takeWhile, drop_takeWhile, List.takeWhile_cons_of_pos (by decide),
      List.dropWhile_cons_of_pos (by decide)]
    refine .line (fun hn => ?_) (head?_dropWhile_ne cs)
    simpa using List.mem_takeWhile_imp hn
  split
  · rename_i hc
    simp only [Bool.and_eq_true, decide_eq_true_eq] at hc
    obtain ⟨rfl, hhead⟩ := hc
    obtain ⟨cs, rfl⟩ := List.head?_eq_some_iff.1 hhead
    simp only [List.tail_cons, Extent.shift, List.take_succ_cons, List.drop_succ_cons]
    cases he : (commentBody cs).closed with
    | true =>
      obtain ⟨body, htake, hbody⟩ := commentBody_closed he
      rw [htake]
      exact .block hbody
    | false =>
      obtain ⟨hlength, hcs⟩ := commentBody_unclosed he
      rw [hlength, List.take_length, List.drop_length]
      exact .unclosed hcs
  split
  · refine .lexeme ?_
    split <;> decide
  split
  · exact .lexeme (by decide)
  · rcases signed_form context c cs with ⟨kind, closed, more, hk, -, heq⟩ | heq
    · rw [heq]
      exact .lexeme hk
    · rw [heq]
      exact strayRun_shaped c cs

end Piece

/-! ## Layouts -/

/-- What stands in a text besides trivia: a token, or a run of characters that begin no token. -/
inductive Find where
  | token (t : Token)
  | stray (f : Fault)

def Fault.isInvalidCharacter (f : Fault) : Bool :=
  match f.cause with
  | .invalidCharacter _ => true
  | _ => false

namespace Find

def location : Find → Location
  | token t => t.location
  | stray f => f.location

def token? : Find → Option Token
  | token t => some t
  | stray _ => none

def stray? : Find → Option Fault
  | token _ => none
  | stray f => some f

/-- What the find stands for is spelled `span`. -/
def Shows : Find → List Char → Prop
  | token t, span => t.kind ≠ .finish ∧ t.text = String.ofList span ∧ span ≠ []
  | stray f, span => ∃ c run, span = c :: run ∧ f.cause = .invalidCharacter c ∧
    ∀ d ∈ run, Piece.Inert d

theorem Shows.ne_nil {x : Find} {span : List Char} (h : x.Shows span) : span ≠ [] := by
  cases x with
  | token t => exact h.2.2
  | stray f =>
    obtain ⟨c, run, rfl, -⟩ := h
    exact List.cons_ne_nil c run

end Find

/-- Behind `before` the text `cs` consists of the finds, each at its location, and of the trivia
before, between and behind them. The flag says that the text ends within a comment. -/
inductive LaidOut (cs : List Char) : List Char → List Find → Bool → Prop
  | finish {before gap : List Char} {unclosed : Bool} (hcs : cs = before ++ gap)
    (hgap : Trivia [] unclosed gap) : LaidOut cs before [] unclosed
  | find {before gap span rest : List Char} {x : Find} {xs : List Find} {unclosed : Bool}
    (hcs : cs = before ++ gap ++ span ++ rest) (hgap : Trivia (span ++ rest) false gap)
    (hspan : x.Shows span)
    (hx : x.location = ⟨.behind (before ++ gap), .behind (before ++ gap ++ span)⟩)
    (h : LaidOut cs (before ++ gap ++ span) xs unclosed) : LaidOut cs before (x :: xs) unclosed

namespace LaidOut
variable {cs before rest : List Char} {xs : List Find} {unclosed : Bool}

/-- Trivia may be put before what is laid out. -/
theorem prepend {part : List Char} (h : LaidOut cs (before ++ part) xs unclosed)
    (hcs : cs = before ++ part ++ rest)
    (hpart : ∀ {more gap : List Char} {b : Bool}, gap ++ more = rest → Trivia more b gap →
      Trivia more b (part ++ gap)) :
    LaidOut cs before xs unclosed := by
  cases h with
  | @finish _ gap _ hcs' hgap =>
    have hrest : gap ++ [] = rest := by
      rw [hcs', List.append_cancel_left_eq] at hcs
      rw [List.append_nil, hcs]
    refine .finish ?_ (hpart hrest hgap)
    rw [hcs', List.append_assoc]
  | @find _ gap span more x xs _ hcs' hgap hspan hx h =>
    have hrest : gap ++ (span ++ more) = rest := by
      rw [hcs', List.append_assoc, List.append_assoc, List.append_cancel_left_eq] at hcs
      exact hcs
    have hcs : cs = before ++ (part ++ gap) ++ span ++ more := by
      rw [hcs']
      simp
    refine .find hcs (hpart hrest hgap) hspan ?_ ?_
    · rwa [← List.append_assoc]
    · rwa [← List.append_assoc]

/-- A find may stand right before what is laid out. -/
theorem next {x : Find} {span : List Char} (h : LaidOut cs (before ++ span) xs unclosed)
    (hcs : cs = before ++ span ++ rest) (hspan : x.Shows span)
    (hx : x.location = ⟨.behind before, .behind (before ++ span)⟩) :
    LaidOut cs before (x :: xs) unclosed := by
  have hcs : cs = before ++ [] ++ span ++ rest := by rwa [List.append_nil]
  refine .find hcs .nil hspan ?_ ?_
  · rwa [List.append_nil]
  · rwa [List.append_nil]

theorem shows (h : LaidOut cs before xs unclosed) : ∀ x ∈ xs, ∃ span, x.Shows span := by
  induction h with
  | finish => simp
  | @find before gap span rest x xs _ _ _ hspan _ _ ih =>
    exact List.forall_mem_cons.2 ⟨⟨span, hspan⟩, ih⟩

theorem start_le (h : LaidOut cs before xs unclosed) :
    ∀ x ∈ xs, byteLength before ≤ x.location.start.offset := by
  induction h with
  | finish => simp
  | @find before gap span rest x xs _ _ _ _ hx _ ih =>
    intro y hy
    rcases List.mem_cons.1 hy with rfl | hy
    · rw [hx]
      simp only [Mark.behind, byteLength_append]
      omega
    · have := ih y hy
      simp only [byteLength_append] at this
      omega

/-- The finds are not empty, and none overlaps with another. -/
theorem ordered (h : LaidOut cs before xs unclosed) :
    (∀ x ∈ xs, x.location.start.offset < x.location.stop.offset) ∧
      xs.Pairwise fun x y => x.location.stop.offset ≤ y.location.start.offset := by
  induction h with
  | finish => simp
  | @find before gap span rest x xs _ _ _ hspan hx h ih =>
    refine ⟨fun y hy => ?_, List.pairwise_cons.2 ⟨fun y hy => ?_, ih.2⟩⟩
    · rcases List.mem_cons.1 hy with rfl | hy
      · obtain ⟨c, span, rfl⟩ := List.exists_cons_of_ne_nil hspan.ne_nil
        have := byteLength_cons_pos c span
        rw [hx]
        simp only [Mark.behind, byteLength_append]
        omega
      · exact ih.1 y hy
    · have := h.start_le y hy
      rw [hx]
      exact this

end LaidOut

namespace Piece

/-- The finds are what the pieces hold besides trivia. -/
structure Holds (lines : LineTable) (lead : List Char) (pieces : List Piece) (finds : List Find)
    (unclosed : Bool) : Prop where
  tokens : finds.filterMap Find.token? = (TokenStream.gather lines lead pieces).tokens
  strays : finds.filterMap Find.stray? =
    (pieces.filterMap (fault? lines)).filter Fault.isInvalidCharacter
  comment : unclosed ↔ ∃ f ∈ pieces.filterMap (fault? lines), f.cause = .unterminatedComment

section
variable {lines : LineTable} {lead : List Char} {p : Piece} {pieces : List Piece} {finds : List Find}
  {unclosed : Bool}

theorem Holds.nil : Holds lines lead [] [] false :=
  ⟨rfl, rfl, by simp⟩

theorem Holds.skip (h : Holds lines (lead ++ p.text) pieces finds unclosed)
    (hform : p.form = .blank ∨ p.form = .comment true) :
    Holds lines lead (p :: pieces) finds unclosed := by
  have hfault : p.fault? lines = none := by
    rcases hform with hform | hform <;> simp [fault?, cause?, hform]
  have hgather : TokenStream.gather lines lead (p :: pieces) =
      TokenStream.gather lines (lead ++ p.text) pieces := by
    rcases hform with hform | hform <;> simp only [TokenStream.gather, hform]
  constructor
  · rw [hgather, h.tokens]
  · rw [List.filterMap_cons_none hfault, h.strays]
  · rw [List.filterMap_cons_none hfault, h.comment]

theorem unclosedCause?_ne {kind : Token.Kind} {cause : Fault.Cause}
    (h : unclosedCause? kind = some cause) :
    cause ≠ .unterminatedComment ∧ ∀ c, cause ≠ .invalidCharacter c := by
  unfold unclosedCause? at h
  split at h <;> cases h <;> exact ⟨nofun, nofun⟩

/-- The fault of a lexeme, if it has one, is about that lexeme only. -/
theorem lexeme_faults {kind : Token.Kind} {closed : Bool} (hform : p.form = .lexeme kind closed) :
    ∀ f ∈ p.fault? lines, f.cause ≠ .unterminatedComment ∧ f.isInvalidCharacter = false := by
  rintro f hf
  simp only [fault?, Option.mem_def, Option.map_eq_some_iff] at hf
  obtain ⟨cause, hcause, rfl⟩ := hf
  cases closed with
  | true => simp [cause?, hform] at hcause
  | false =>
    simp only [cause?, hform] at hcause
    obtain ⟨hcomment, hinvalid⟩ := unclosedCause?_ne hcause
    refine ⟨hcomment, ?_⟩
    cases cause with
    | invalidCharacter c => exact absurd rfl (hinvalid c)
    | _ => rfl

theorem Holds.lexeme {kind : Token.Kind} {closed : Bool} (h : Holds lines [] pieces finds unclosed)
    (hform : p.form = .lexeme kind closed) :
    Holds lines lead (p :: pieces) (.token ⟨kind, lines.mark p.start, lines.mark p.stop,
      String.ofList lead, String.ofList p.text⟩ :: finds) unclosed := by
  have hfaults : ∀ f ∈ p.fault? lines, _ := lexeme_faults hform
  constructor
  · simp only [TokenStream.gather, hform, List.filterMap_cons, Find.token?, h.tokens]
  · rw [List.filterMap_cons_none rfl, h.strays]
    cases hf : p.fault? lines with
    | none => rw [List.filterMap_cons_none hf]
    | some f => rw [List.filterMap_cons_some hf, List.filter_cons_of_neg (by simp [hfaults f hf])]
  · rw [h.comment]
    cases hf : p.fault? lines with
    | none => rw [List.filterMap_cons_none hf]
    | some f => simp [List.filterMap_cons_some hf, (hfaults f hf).1]

theorem Holds.stray {c : Char} {run : List Char}
    (h : Holds lines (lead ++ p.text) pieces finds unclosed) (hform : p.form = .stray)
    (htext : p.text = c :: run) :
    Holds lines lead (p :: pieces)
      (.stray ⟨.invalidCharacter c, lines.locate p.start p.stop⟩ :: finds) unclosed := by
  have hfault : p.fault? lines = some ⟨.invalidCharacter c, lines.locate p.start p.stop⟩ := by
    simp [fault?, cause?, hform, htext]
  constructor
  · rw [List.filterMap_cons_none rfl, h.tokens]
    simp only [TokenStream.gather, hform]
  · rw [List.filterMap_cons_some hfault, List.filter_cons_of_pos rfl, ← h.strays]
    rfl
  · rw [h.comment, List.filterMap_cons_some hfault]
    simp

theorem Holds.comment_last (hform : p.form = .comment false) : Holds lines lead [p] [] true := by
  have hfault : p.fault? lines = some ⟨.unterminatedComment, lines.locate p.start p.stop⟩ := by
    simp [fault?, cause?, hform]
  constructor
  · simp [TokenStream.gather, hform]
  · rw [List.filterMap_cons_some hfault]
    rfl
  · simp [List.filterMap_cons_some hfault]

end

theorem cutFrom_nil (turns : Nat) (context : Context) (start : Nat) :
    cutFrom turns context start [] = [] := by
  cases turns <;> rfl

/-- Whatever a piece is, it may stand before the pieces of the rest. -/
theorem Shaped.laidOut {cs before text rest : List Char} {form : Form} {pieces : List Piece}
    (h : Shaped form text rest) (hne : text ≠ []) (hcs : cs = before ++ text ++ rest)
    (hpieces : rest = [] → pieces = [])
    (hrest : ∀ lead, ∃ finds unclosed, LaidOut cs (before ++ text) finds unclosed ∧
      Holds (.ofChars cs) lead pieces finds unclosed) (lead : List Char) :
    ∃ finds unclosed, LaidOut cs before finds unclosed ∧
      Holds (.ofChars cs) lead (⟨form, byteLength before, text⟩ :: pieces) finds unclosed := by
  have hmark : (LineTable.ofChars cs).mark (byteLength before) = .behind before := by
    rw [hcs, List.append_assoc, LineTable.mark_ofChars]
  have hmark' : (LineTable.ofChars cs).mark (byteLength before + byteLength text) =
      .behind (before ++ text) := by
    rw [hcs, ← byteLength_append, LineTable.mark_ofChars]
  cases h with
  | blank h =>
    obtain ⟨finds, unclosed, hlaid, hholds⟩ := hrest (lead ++ text)
    exact ⟨finds, unclosed, hlaid.prepend hcs fun _ hgap => hgap.blanks h, hholds.skip (.inl rfl)⟩
  | @line body _ hb hend =>
    obtain ⟨finds, unclosed, hlaid, hholds⟩ := hrest (lead ++ '/' :: '/' :: body)
    refine ⟨finds, unclosed, hlaid.prepend hcs fun {more gap b} heq hgap => ?_,
      hholds.skip (.inr rfl)⟩
    rw [← heq] at hend
    exact .line hb hend hgap
  | @block body _ hb =>
    obtain ⟨finds, unclosed, hlaid, hholds⟩ := hrest (lead ++ '/' :: '*' :: (body ++ ['*', '/']))
    refine ⟨finds, unclosed, hlaid.prepend hcs fun {more gap b} heq hgap => ?_,
      hholds.skip (.inr rfl)⟩
    have hblock := Trivia.block hb hgap
    simpa using hblock
  | unclosed hb =>
    rw [hpieces rfl]
    rw [List.append_nil] at hcs
    exact ⟨[], true, .finish hcs (.unclosed hb rfl), .comment_last rfl⟩
  | lexeme hk =>
    obtain ⟨finds, unclosed, hlaid, hholds⟩ := hrest []
    refine ⟨_, unclosed, hlaid.next hcs ?_ ?_, hholds.lexeme rfl⟩
    · exact ⟨hk, rfl, hne⟩
    · exact congrArg₂ Location.mk hmark hmark'
  | @stray c run _ h =>
    obtain ⟨finds, unclosed, hlaid, hholds⟩ := hrest (lead ++ c :: run)
    refine ⟨_, unclosed, hlaid.next hcs ?_ ?_, hholds.stray rfl rfl⟩
    · exact ⟨c, run, rfl, rfl, h⟩
    · exact congrArg₂ Location.mk hmark hmark'

theorem cutFrom_laidOut {turns : Nat} {cs before rest : List Char} (hcs : cs = before ++ rest)
    (hturns : rest.length ≤ turns) (context : Context) (lead : List Char) :
    ∃ finds unclosed, LaidOut cs before finds unclosed ∧
      Holds (.ofChars cs) lead (cutFrom turns context (byteLength before) rest) finds unclosed := by
  induction turns generalizing before rest context lead with
  | zero =>
    obtain rfl := List.length_eq_zero_iff.1 (Nat.le_zero.1 hturns)
    exact ⟨[], false, .finish hcs .nil, .nil⟩
  | succ turns ih =>
    cases rest with
    | nil => exact ⟨[], false, .finish hcs .nil, .nil⟩
    | cons c rest =>
      simp only [cutFrom]
      have hshaped := read_shaped context c rest
      generalize read context c rest = r at hshaped ⊢
      obtain ⟨form, more⟩ := r
      have hlength : (rest.drop more).length ≤ turns := by
        rw [List.length_cons] at hturns
        rw [List.length_drop]
        omega
      have hsplit : cs = before ++ (c :: rest.take more) ++ rest.drop more := by
        rw [hcs, List.append_assoc, List.cons_append, List.take_append_drop]
      have hnil (hempty : rest.drop more = []) :
          cutFrom turns (context.after (c :: rest.take more) form)
            (byteLength (before ++ c :: rest.take more)) (rest.drop more) = [] := by
        rw [hempty, cutFrom_nil]
      rw [← byteLength_append]
      exact hshaped.laidOut (List.cons_ne_nil _ _) hsplit hnil
        (ih hsplit hlength (context.after (c :: rest.take more) form)) lead

end Piece

namespace TokenStream

theorem gather_finish_location (lines : LineTable) (lead : List Char) (pieces : List Piece) :
    (gather lines lead pieces).finish.location = lines.locate lines.size lines.size := by
  induction pieces generalizing lead with
  | nil => rfl
  | cons p pieces ih =>
    simp only [gather]
    split <;> exact ih _

theorem ofChars_finish_location (cs : List Char) :
    (ofChars cs).1.finish.location = ⟨.behind cs, .behind cs⟩ := by
  have hend := LineTable.mark_ofChars cs []
  rw [List.append_nil, ← LineTable.size_ofChars] at hend
  rw [← hend]
  exact gather_finish_location _ _ _

/-- No character of a text is lost: the tokens and the runs that were reported as invalid lie one
behind the other, and whatever stands between them, before them or behind them is trivia. Only the
last token ends the text, and it does so at the end. -/
theorem ofChars_laidOut (cs : List Char) :
    ((ofChars cs).1.finish.kind = .finish ∧
      (ofChars cs).1.finish.location = ⟨.behind cs, .behind cs⟩ ∧
      ∀ t ∈ (ofChars cs).1.tokens, t.kind ≠ .finish) ∧
    ∃ finds unclosed,
      finds.filterMap Find.token? = (ofChars cs).1.tokens ∧
      finds.filterMap Find.stray? = (ofChars cs).2.filter Fault.isInvalidCharacter ∧
      (∀ x ∈ finds, x.location.start.offset < x.location.stop.offset) ∧
      finds.Pairwise (fun x y => x.location.stop.offset ≤ y.location.start.offset) ∧
      LaidOut cs [] finds unclosed ∧
      (unclosed ↔ ∃ f ∈ (ofChars cs).2, f.cause = .unterminatedComment) := by
  obtain ⟨finds, unclosed, hlaid, hholds⟩ :=
    Piece.cutFrom_laidOut (List.nil_append cs).symm le_rfl {} []
  refine ⟨⟨gather_finish_kind _ _ _, ofChars_finish_location cs, fun t ht => ?_⟩, finds, unclosed,
    hholds.tokens, hholds.strays, hlaid.ordered.1, hlaid.ordered.2, hlaid, hholds.comment⟩
  have hmem : t ∈ finds.filterMap Find.token? := by
    rw [hholds.tokens]
    exact ht
  obtain ⟨x, hx, heq⟩ := List.mem_filterMap.1 hmem
  obtain ⟨span, hspan⟩ := hlaid.shows x hx
  cases x with
  | token t' =>
    cases heq
    exact hspan.1
  | stray f => cases heq

end TokenStream

end GrammarAtlas
