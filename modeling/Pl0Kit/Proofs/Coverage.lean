import Mathlib.Data.Nat.Digits.Defs
import Pl0Kit.Lexer
import Pl0Kit.Proofs.Spelling

/-!
# Every character of a text

A lexer that is asked until the end of its text passes over every character once.  The text is the
pieces one after the other: tokens, single blanks, runs of newlines, comments and illegal
characters.

* `Spells`        the token rules: which texts spell a token, of which kind and with which payload;
* `Piece.FitsAt`  what a piece has to be, given the text before it and the text from it on;
* `Asked`         asking a lexer for tokens until there are none;
* `lexer_accounts_for_text`  the pieces of a text, the tokens found, the lines printed and the line
  count at the end.
-/

namespace Pl0Kit

/-! ## token rules -/

/-- the texts that spell a token, with its kind and its payload -/
inductive Spells : List Char → Kind → Payload → Prop
  | keyword {w : Keyword} {cs : List Char} : cs.map Char.toUpper = w.word.toList →
      Spells cs (.keyword w) (.text (String.ofList (cs.map Char.toUpper)))
  | name {x : String} : Identifier x → Spells x.toList .name (.text x)
  | number {cs : List Char} {ds : List Nat} : cs ≠ [] → cs.map Text.digitValue? = ds.map some →
      Spells cs .number (.number (Nat.ofDigits 10 ds.reverse))
  | mark {k : Kind} {cs : List Char} : (k, cs) ∈ markSpellings →
      Spells cs k (.text (String.ofList cs))

theorem isDigit_of_isNameStart {c : Char} (h : Lexeme.isNameStart c = true) :
    Text.isDigit c = false := by
  have hz : ∀ z ∈ Text.digitZeros, z = 48 ∨ 1632 ≤ z := by decide
  have hc : 65 ≤ c.toNat ∧ c.toNat ≤ 122 := by
    rw [Lexeme.isNameStart, Bool.or_eq_true, Text.isAlpha_iff, beq_iff_eq] at h
    rcases h with h | rfl
    · omega
    · decide
  rw [Text.isDigit, Text.digitValue?, Option.isSome_map, ← Bool.not_eq_true,
    List.find?_isSome]
  rintro ⟨z, hmem, h⟩
  simp only [Bool.and_eq_true, decide_eq_true_eq] at h
  have := hz z hmem
  omega

/-- a mark starts with a character that starts nothing else -/
theorem markSpellings_head {k : Kind} {c : Char} {cs : List Char}
    (h : (k, c :: cs) ∈ markSpellings) : Lexeme.isNameStart c = false ∧ Text.isDigit c = false := by
  have hall : ∀ m ∈ markSpellings,
      Lexeme.isNameStart (m.2.headD ' ') = false ∧ Text.isDigit (m.2.headD ' ') = false := by
    decide +kernel
  exact hall _ h

theorem markSpellings_ne_nil : ∀ m ∈ markSpellings, m.2 ≠ [] := by decide

/-- the three shapes of token texts, told apart by their first character -/
theorem Spells.shape {c : Char} {cs : List Char} {k : Kind} {v : Payload}
    (h : Spells (c :: cs) k v) :
    (Lexeme.isNameStart c = true ∧ ∀ d ∈ cs, Lexeme.isNameChar d = true) ∨
    (Text.isDigit c = true ∧ ∀ d ∈ cs, Text.isDigit d = true) ∨
    (k, c :: cs) ∈ markSpellings := by
  generalize ht : c :: cs = t at h
  cases h with
  | keyword hw =>
    obtain ⟨d, ds, heq, hd, hds⟩ := keyword_chars hw
    cases ht.trans heq
    exact .inl ⟨hd, hds⟩
  | name hx =>
    obtain ⟨d, ds, heq, hd, hds⟩ := hx.start
    cases ht.trans heq
    exact .inl ⟨hd, hds⟩
  | @number _ ds _ hds =>
    have hall : ∀ d ∈ t, Text.isDigit d = true := by
      intro d hd
      have hmem : Text.digitValue? d ∈ ds.map some := hds ▸ List.mem_map_of_mem hd
      obtain ⟨n, -, hn⟩ := List.mem_map.1 hmem
      rw [Text.isDigit, ← hn]
      rfl
    subst ht
    exact .inr (.inl ⟨hall c List.mem_cons_self, fun d hd => hall d (List.mem_cons_of_mem c hd)⟩)
  | mark hm => exact .inr (.inr (ht ▸ hm))

theorem Spells.ne_nil {k : Kind} {v : Payload} : ¬ Spells [] k v := by
  generalize ht : ([] : List Char) = t
  intro h
  cases h with
  | keyword hw =>
    obtain ⟨d, ds, heq, -⟩ := keyword_chars hw
    cases ht.trans heq
  | name hx =>
    obtain ⟨d, ds, heq, -⟩ := hx.start
    cases ht.trans heq
  | number hne _ => exact hne ht.symm
  | mark hm => exact markSpellings_ne_nil _ hm ht.symm

/-- no token rule matches more of the text `rest` than `cs` -/
def Longest (cs rest : List Char) : Prop :=
  ∀ ds k v, Spells ds k v → ds <+: rest → ds.length ≤ cs.length

/-- To bound the matches at a place, it is enough to bound those of the one shape that starts with
its first character. -/
theorem longest_of_shapes {c : Char} {cs rest : List Char}
    (hword : ∀ ds, ds <+: rest → Lexeme.isNameStart c = true →
      (∀ d ∈ ds, Lexeme.isNameChar d = true) → ds.length + 1 ≤ cs.length)
    (hdigits : ∀ ds, ds <+: rest → Text.isDigit c = true →
      (∀ d ∈ ds, Text.isDigit d = true) → ds.length + 1 ≤ cs.length)
    (hmark : ∀ ds k, ds <+: rest → (k, c :: ds) ∈ markSpellings → ds.length + 1 ≤ cs.length) :
    Longest cs (c :: rest) := by
  intro ds k v hs hp
  cases ds with
  | nil => exact absurd hs Spells.ne_nil
  | cons d ds =>
    obtain ⟨rfl, hds⟩ := List.cons_prefix_cons.1 hp
    rcases hs.shape with ⟨hd, hall⟩ | ⟨hd, hall⟩ | hm
    · exact hword ds hds hd hall
    · exact hdigits ds hds hd hall
    · exact hmark ds k hds hm

theorem length_le_takeWhile {p : Char → Bool} {ds cs : List Char} (h : ds <+: cs)
    (hp : ∀ d ∈ ds, p d = true) : ds.length ≤ (cs.takeWhile p).length := by
  obtain ⟨es, rfl⟩ := h
  rw [List.takeWhile_append_of_pos hp]
  simp

/-! ## marks -/

theorem mark?_mem_spellings {c : Char} {next : Option Char} {k : Kind} {cs : List Char}
    (h : Lexeme.mark? c next = some (k, cs)) :
    (k, cs) ∈ markSpellings ∧ (cs = [c] ∨ cs = [c, '='] ∧ next = some '=') := by
  unfold Lexeme.mark? at h
  split at h <;> cases h <;> simp [markSpellings]

/-- a mark in the text is found, or a longer one -/
theorem mark?_of_prefix {k : Kind} {c : Char} {ds cs : List Char}
    (hm : (k, c :: ds) ∈ markSpellings) (hp : ds <+: cs) :
    ∃ k' t, Lexeme.mark? c cs.head? = some (k', t) ∧ ds.length + 1 ≤ t.length := by
  have hnext : ds = [] ∨ ds = ['='] ∧ cs.head? = some '=' := by
    have hlen : ∀ m ∈ markSpellings, m.2.tail = [] ∨ m.2.tail = ['='] := by decide
    rcases hlen _ hm with rfl | rfl
    · exact .inl rfl
    · obtain ⟨es, rfl⟩ := hp
      exact .inr ⟨rfl, rfl⟩
  -- a mark of one character is found whatever follows it
  have hone : ∀ m ∈ markSpellings, m.2.length = 1 → (Lexeme.mark? (m.2.headD ' ') none).isSome ∧
      (Lexeme.mark? (m.2.headD ' ') (some '=')).isSome := by decide
  have htwo : ∀ m ∈ markSpellings, m.2.length = 2 →
      (Lexeme.mark? (m.2.headD ' ') (some '=')).map (·.2.length) = some 2 := by decide
  rcases hnext with rfl | ⟨rfl, hc⟩
  · have h := hone _ hm rfl
    have hsome : (Lexeme.mark? c cs.head?).isSome := by
      by_cases hc : cs.head? = some '='
      · rw [hc]
        exact h.2
      · rw [mark?_eq_none hc]
        exact h.1
    obtain ⟨⟨k', t⟩, ht⟩ := Option.isSome_iff_exists.1 hsome
    exact ⟨k', t, ht, List.length_pos_iff.2 (markSpellings_ne_nil _ (mark?_mem_spellings ht).1)⟩
  · have h := htwo _ hm rfl
    rw [← hc] at h
    obtain ⟨⟨k', t⟩, ht, hlen⟩ := Option.map_eq_some_iff.1 h
    exact ⟨k', t, ht, hlen.ge⟩

/-! ## numbers -/

theorem readDigits_ofDigits {cs : List Char} {ds : List Nat}
    (h : cs.map Text.digitValue? = ds.map some) (acc : Nat) :
    Text.readDigits acc cs = some (acc * 10 ^ cs.length + Nat.ofDigits 10 ds.reverse) := by
  induction cs generalizing ds acc with
  | nil =>
    cases ds with
    | nil => simp [Text.readDigits]
    | cons d ds => cases h
  | cons c cs ih =>
    cases ds with
    | nil => cases h
    | cons d ds =>
      obtain ⟨hc, hcs⟩ := List.cons.inj h
      have hlen : ds.length = cs.length := by simpa using (congrArg List.length hcs).symm
      rw [Text.readDigits, hc]
      show Text.readDigits (acc * 10 + d) cs = _
      rw [ih hcs, List.reverse_cons, Nat.ofDigits_append, List.length_reverse, hlen,
        Nat.ofDigits_singleton, List.length_cons]
      congr 1
      ring

theorem exists_digits {cs : List Char} (h : ∀ c ∈ cs, Text.isDigit c = true) :
    ∃ ds : List Nat, cs.map Text.digitValue? = ds.map some := by
  induction cs with
  | nil => exact ⟨[], rfl⟩
  | cons c cs ih =>
    obtain ⟨d, hd⟩ := Option.isSome_iff_exists.1 (h c List.mem_cons_self)
    obtain ⟨ds, hds⟩ := ih fun e he => h e (List.mem_cons_of_mem c he)
    exact ⟨d :: ds, by rw [List.map_cons, hd, hds, List.map_cons]⟩

/-! ## pieces of a text -/

/-- a stretch of a text, with the token it spells if it spells one -/
inductive Piece where
  | token (t : Token) (cs : List Char)
  | blank (c : Char)
  | newlines (n : Nat)
  | comment (cs : List Char)
  | illegal (c : Char)

namespace Piece

def text : Piece → List Char
  | token _ cs => cs
  | blank c => [c]
  | newlines n => List.replicate n '\n'
  | comment cs => cs
  | illegal c => [c]

def token? : Piece → Option Token
  | token t _ => some t
  | _ => none

def illegal? : Piece → Option Char
  | illegal c => some c
  | _ => none

/-- what a piece has to be, when `before` stands before it and `rest` is the text from it on -/
def FitsAt (before rest : List Char) : Piece → Prop
  | token t cs => Spells cs t.kind t.payload ∧ Longest cs rest ∧ t.pos = before.length ∧
      t.line = 1 + before.count '\n'
  | blank c => c = ' ' ∨ c = '\t'
  | newlines n => 0 < n ∧ (rest.drop n).head? ≠ some '\n'
  | comment cs => cs.head? = some '#' ∧ '\n' ∉ cs ∧
      ∀ c, (rest.drop cs.length).head? = some c → c = '\n'
  | illegal c => c ∉ [' ', '\t', '\n', '#'] ∧ ∀ ds k v, Spells ds k v → ¬ ds <+: rest

end Piece

/-- the pieces of a text that follows `before`, each in its place -/
def Pieces (before : List Char) (ps : List Piece) : Prop :=
  ∀ pre p post, ps = pre ++ p :: post →
    p.FitsAt (before ++ pre.flatMap Piece.text) ((p :: post).flatMap Piece.text)

theorem Pieces.nil (before : List Char) : Pieces before [] := by
  intro pre p post h
  cases pre <;> cases h

theorem Pieces.cons {before : List Char} {p : Piece} {ps : List Piece}
    (hp : p.FitsAt before (p.text ++ ps.flatMap Piece.text)) (h : Pieces (before ++ p.text) ps) :
    Pieces before (p :: ps) := by
  intro pre q post heq
  cases pre with
  | nil =>
    cases heq
    simpa using hp
  | cons a pre =>
    cases heq
    simpa using h pre q post rfl

/-! ## the first piece -/

/-- A lexeme that was cut off a text, as a piece of it: the same text, the same token, the same
report. -/
structure IsPiece (before rest : List Char) (x : Lexeme) (p : Piece) : Prop where
  fits : p.FitsAt before rest
  text : p.text = x.text
  token : p.token? = x.token? (1 + before.count '\n') before.length
  report : p.illegal?.toList = x.reported
  lines : x.lineCount = x.text.count '\n'

theorem count_newline_of_all {p : Char → Bool} (hp : p '\n' = false) {cs : List Char}
    (h : ∀ c ∈ cs, p c = true) : cs.count '\n' = 0 := by
  refine List.count_eq_zero.2 fun hmem => ?_
  have := h _ hmem
  rw [hp] at this
  cases this

/-- a lexeme with a token is a piece when the token rules agree on both -/
theorem isPiece_token {before rest : List Char} {x : Lexeme} {t : Token}
    (ht : x.token? (1 + before.count '\n') before.length = some t) (hx : x.reported = [])
    (hs : Spells x.text t.kind t.payload) (hl : Longest x.text rest)
    (hpos : t.pos = before.length) (hline : t.line = 1 + before.count '\n')
    (hn : x.text.count '\n' = 0) : IsPiece before rest x (.token t x.text) where
  fits := ⟨hs, hl, hpos, hline⟩
  text := rfl
  token := ht.symm
  report := hx.symm
  lines := by rw [hn, Lexeme.lineCount_of_token? ht]

theorem exists_piece_word (before : List Char) {c : Char} (cs : List Char)
    (hc : Lexeme.isNameStart c = true) :
    ∃ p, IsPiece before (c :: cs) (.word (c :: cs.takeWhile Lexeme.isNameChar)) p := by
  have hall : ∀ d ∈ cs.takeWhile Lexeme.isNameChar, Lexeme.isNameChar d = true :=
    fun d hd => List.mem_takeWhile_imp hd
  have hlong : Longest (c :: cs.takeWhile Lexeme.isNameChar) (c :: cs) := by
    refine longest_of_shapes ?_ ?_ ?_
    · intro ds hp _ hds
      exact Nat.succ_le_succ (length_le_takeWhile hp hds)
    · intro ds _ hd _
      rw [isDigit_of_isNameStart hc] at hd
      cases hd
    · intro ds k _ hm
      have := (markSpellings_head hm).1
      rw [hc] at this
      cases this
  have hn : (c :: cs.takeWhile Lexeme.isNameChar).count '\n' = 0 := by
    refine count_newline_of_all (p := Lexeme.isNameChar) (by decide) fun d hd => ?_
    rcases List.mem_cons.1 hd with rfl | hd
    · exact Lexeme.isNameChar_of_isNameStart hc
    · exact hall d hd
  generalize hw : c :: cs.takeWhile Lexeme.isNameChar = w at hlong hn ⊢
  cases hk : Keyword.ofWord? (String.ofList (w.map Char.toUpper)) with
  | some k =>
    refine ⟨_, isPiece_token (t := ⟨.keyword k, .text (String.ofList (w.map Char.toUpper)), _, _⟩)
      ?_ rfl ?_ hlong rfl rfl hn⟩
    · simp only [Lexeme.token?, hk]
    · have hword := List.find?_some hk
      rw [beq_iff_eq] at hword
      have hw : w.map Char.toUpper = k.word.toList := by rw [hword, String.toList_ofList]
      exact Spells.keyword hw
  | none =>
    refine ⟨_, isPiece_token (t := ⟨.name, .text (String.ofList w), _, _⟩) ?_ rfl ?_ hlong rfl rfl
      hn⟩
    · simp only [Lexeme.token?, hk]
    · have hid : Identifier (String.ofList w) :=
        ⟨⟨c, _, by rw [String.toList_ofList, hw], hc, hall⟩, by rwa [String.toList_ofList]⟩
      simpa only [String.toList_ofList, Lexeme.text] using Spells.name hid

theorem exists_piece_digits (before : List Char) {c : Char} (cs : List Char)
    (hname : Lexeme.isNameStart c = false) (hc : Text.isDigit c = true) :
    ∃ p, IsPiece before (c :: cs) (.digits (c :: cs.takeWhile Text.isDigit)) p := by
  have hall : ∀ d ∈ c :: cs.takeWhile Text.isDigit, Text.isDigit d = true := by
    intro d hd
    rcases List.mem_cons.1 hd with rfl | hd
    · exact hc
    · exact List.mem_takeWhile_imp hd
  obtain ⟨ds, hds⟩ := exists_digits hall
  refine ⟨_, isPiece_token (t := ⟨.number, .number (Nat.ofDigits 10 ds.reverse), _, _⟩) ?_ rfl
    (Spells.number (List.cons_ne_nil _ _) hds) ?_ rfl rfl
    (count_newline_of_all (p := Text.isDigit) (by decide +kernel) hall)⟩
  · simp only [Lexeme.token?, readDigits_ofDigits hds, Nat.zero_mul, Nat.zero_add,
      Option.getD_some]
  · refine longest_of_shapes ?_ ?_ ?_
    · intro es _ hd _
      rw [hname] at hd
      cases hd
    · intro es hp _ hes
      exact Nat.succ_le_succ (length_le_takeWhile hp hes)
    · intro es k _ hm
      have := (markSpellings_head hm).2
      rw [hc] at this
      cases this

theorem exists_piece_mark (before : List Char) {c : Char} {cs t : List Char} {k : Kind}
    (hname : Lexeme.isNameStart c = false) (hdigit : Text.isDigit c = false)
    (hm : Lexeme.mark? c cs.head? = some (k, t)) :
    ∃ p, IsPiece before (c :: cs) (.mark k t) p := by
  obtain ⟨hmem, -⟩ := mark?_mem_spellings hm
  have hnone : ∀ m ∈ markSpellings, m.2.count '\n' = 0 := by decide
  refine ⟨_, isPiece_token (t := ⟨k, .text (String.ofList t), _, _⟩) rfl rfl (Spells.mark hmem) ?_
    rfl rfl (hnone _ hmem)⟩
  refine longest_of_shapes ?_ ?_ ?_
  · intro ds _ hd _
    rw [hname] at hd
    cases hd
  · intro ds _ hd _
    rw [hdigit] at hd
    cases hd
  · intro ds k' hp hds
    obtain ⟨k'', t', ht, hlen⟩ := mark?_of_prefix hds hp
    cases hm.symm.trans ht
    exact hlen

theorem isPiece_illegal (before : List Char) {c : Char} {cs : List Char}
    (hother : c ∉ [' ', '\t', '\n', '#']) (hname : Lexeme.isNameStart c = false)
    (hdigit : Text.isDigit c = false) (hm : Lexeme.mark? c cs.head? = none) :
    IsPiece before (c :: cs) (.illegal c) (.illegal c) where
  fits := by
    -- no rule matches, since no rule matches even a text of length zero
    have hlong : Longest [] (c :: cs) := by
      refine longest_of_shapes ?_ ?_ ?_
      · intro ds _ hd _
        rw [hname] at hd
        cases hd
      · intro ds _ hd _
        rw [hdigit] at hd
        cases hd
      · intro ds k hp hds
        obtain ⟨k', t, ht, -⟩ := mark?_of_prefix hds hp
        cases hm.symm.trans ht
    refine ⟨hother, fun ds k v hs hp => ?_⟩
    have hds := List.length_eq_zero_iff.1 (Nat.le_zero.1 (hlong ds k v hs hp))
    exact Spells.ne_nil (hds ▸ hs)
  text := rfl
  token := rfl
  report := rfl
  lines := by
    refine (List.count_eq_zero.2 fun h => hother ?_).symm
    cases List.mem_singleton.1 h
    decide

theorem head?_dropWhile {p : Char → Bool} {c : Char} {cs : List Char}
    (h : (cs.dropWhile p).head? = some c) : p c = false := by
  have := List.head?_dropWhile_not p cs
  rw [h] at this
  simpa using this

theorem drop_takeWhile (p : Char → Bool) (cs : List Char) :
    cs.drop (cs.takeWhile p).length = cs.dropWhile p := by
  conv_lhs => arg 2; rw [← List.takeWhile_append_dropWhile (p := p) (l := cs)]
  exact List.drop_left

theorem isPiece_newlines (before cs : List Char) :
    IsPiece before ('\n' :: cs) (.newlines ((cs.takeWhile (· == '\n')).length + 1))
      (.newlines ((cs.takeWhile (· == '\n')).length + 1)) where
  fits := by
    refine ⟨Nat.succ_pos _, fun h => ?_⟩
    rw [List.drop_succ_cons, drop_takeWhile] at h
    exact absurd (head?_dropWhile h) (by decide)
  text := rfl
  token := rfl
  report := rfl
  lines := List.count_replicate_self.symm

theorem isPiece_comment (before cs : List Char) :
    IsPiece before ('#' :: cs) (.comment ('#' :: cs.takeWhile (· != '\n')))
      (.comment ('#' :: cs.takeWhile (· != '\n'))) := by
  have hno : '\n' ∉ '#' :: cs.takeWhile (· != '\n') := by
    intro h
    rcases List.mem_cons.1 h with h | h
    · cases h
    · exact absurd (List.mem_takeWhile_imp h) (by decide)
  refine ⟨⟨rfl, hno, fun c h => ?_⟩, rfl, rfl, rfl, (List.count_eq_zero.2 hno).symm⟩
  rw [List.length_cons, List.drop_succ_cons, drop_takeWhile] at h
  simpa using head?_dropWhile h

namespace Lexeme

theorem cut_mark? {c : Char} {cs : List Char} (hs : isSpace c = false)
    (hname : isNameStart c = false) (hnl : (c == '\n') = false) (hcm : (c == '#') = false)
    (hd : Text.isDigit c = false) :
    cut c cs = match mark? c cs.head? with
      | some (k, t) => (mark k t, (c :: cs).drop t.length)
      | none => (illegal c, cs) := by
  rw [cut, hs, hname, hnl, hcm, hd]
  simp only [Bool.false_eq_true, ↓reduceIte]
  cases hm : mark? c cs.head? with
  | none => rfl
  | some kt =>
    obtain ⟨k, t⟩ := kt
    rcases (mark?_mem_spellings hm).2 with rfl | ⟨rfl, -⟩ <;> rfl

/-- nothing of the text is lost by cutting a lexeme off -/
theorem cut_text (c : Char) (cs : List Char) : (cut c cs).1.text ++ (cut c cs).2 = c :: cs := by
  have htake : ∀ p : Char → Bool, c :: cs.takeWhile p ++ cs.dropWhile p = c :: cs := fun p => by
    rw [List.cons_append, List.takeWhile_append_dropWhile]
  by_cases hs : isSpace c = true
  · rw [cut, if_pos hs]
    rfl
  by_cases hname : isNameStart c = true
  · rw [cut, if_neg hs, if_pos hname]
    exact htake _
  by_cases hnl : (c == '\n') = true
  · rw [cut, if_neg hs, if_neg hname, if_pos hnl]
    have hrun : List.replicate (cs.takeWhile (· == '\n')).length '\n' = cs.takeWhile (· == '\n') :=
      (List.eq_replicate_of_mem fun d hd => by simpa using List.mem_takeWhile_imp hd).symm
    rw [text, List.replicate_succ, hrun, ← beq_iff_eq.1 hnl]
    exact htake _
  by_cases hcm : (c == '#') = true
  · rw [cut, if_neg hs, if_neg hname, if_neg hnl, if_pos hcm]
    exact htake _
  by_cases hd : Text.isDigit c = true
  · rw [cut, if_neg hs, if_neg hname, if_neg hnl, if_neg hcm, if_pos hd]
    exact htake _
  rw [Bool.not_eq_true] at hs hname hnl hcm hd
  rw [cut_mark? hs hname hnl hcm hd]
  cases hm : mark? c cs.head? with
  | none => rfl
  | some kt =>
    obtain ⟨k, t⟩ := kt
    rcases (mark?_mem_spellings hm).2 with rfl | ⟨rfl, hc⟩
    · rfl
    · obtain ⟨es, rfl⟩ := List.head?_eq_some_iff.1 hc
      rfl

/-- the first lexeme of a text is its first piece -/
theorem exists_piece_cut (before : List Char) (c : Char) (cs : List Char) :
    ∃ p, IsPiece before (c :: cs) (cut c cs).1 p := by
  by_cases hs : isSpace c = true
  · rw [cut, if_pos hs]
    have hc : c = ' ' ∨ c = '\t' := by simpa [isSpace] using hs
    refine ⟨.blank c, hc, rfl, rfl, rfl, ?_⟩
    rcases hc with rfl | rfl <;> rfl
  by_cases hname : isNameStart c = true
  · rw [cut, if_neg hs, if_pos hname]
    exact exists_piece_word before cs hname
  by_cases hnl : (c == '\n') = true
  · rw [cut, if_neg hs, if_neg hname, if_pos hnl]
    obtain rfl := beq_iff_eq.1 hnl
    exact ⟨_, isPiece_newlines before cs⟩
  by_cases hcm : (c == '#') = true
  · rw [cut, if_neg hs, if_neg hname, if_neg hnl, if_pos hcm]
    obtain rfl := beq_iff_eq.1 hcm
    exact ⟨_, isPiece_comment before cs⟩
  by_cases hd : Text.isDigit c = true
  · rw [cut, if_neg hs, if_neg hname, if_neg hnl, if_neg hcm, if_pos hd]
    exact exists_piece_digits before cs (by simpa using hname) hd
  rw [Bool.not_eq_true] at hs hname hnl hcm hd
  rw [cut_mark? hs hname hnl hcm hd]
  cases hm : mark? c cs.head? with
  | none =>
    refine ⟨_, isPiece_illegal before ?_ hname hd hm⟩
    simp only [isSpace, Bool.or_eq_false_iff] at hs
    simpa using ⟨by simpa using hs.1, by simpa using hs.2, by simpa using hnl, by simpa using hcm⟩
  | some kt => exact exists_piece_mark before hname hd hm

theorem reported_of_token? {x : Lexeme} {line pos : Int} {t : Token}
    (h : x.token? line pos = some t) : x.reported = [] := by
  cases x with
  | illegal c => cases h
  | _ => rfl

end Lexeme

/-- lines that some lexemes end -/
def lineTotal (xs : List Lexeme) : Nat := (xs.map Lexeme.lineCount).sum

/-- The lexemes of a text are its pieces, and the lines they end are the newlines in it. -/
theorem exists_pieces (cs : List Char) : ∀ before : List Char, ∃ ps : List Piece,
    ps.flatMap Piece.text = cs ∧ Pieces before ps ∧
    tokensFrom (1 + before.count '\n') before.length (lexemes cs) = ps.filterMap Piece.token? ∧
    (lexemes cs).flatMap Lexeme.reported = ps.filterMap Piece.illegal? ∧
    lineTotal (lexemes cs) = cs.count '\n' := by
  fun_induction lexemes cs with
  | case1 => exact fun before => ⟨[], rfl, Pieces.nil before, rfl, rfl, rfl⟩
  | case2 c cs ih =>
    intro before
    obtain ⟨p, hp⟩ := Lexeme.exists_piece_cut before c cs
    obtain ⟨ps, htext, hps, htokens, hreports, hlines⟩ := ih (before ++ p.text)
    have hcut : p.text ++ ps.flatMap Piece.text = c :: cs := by
      rw [htext, hp.text, Lexeme.cut_text]
    refine ⟨p :: ps, hcut, Pieces.cons (hcut ▸ hp.fits) hps, ?_, ?_, ?_⟩
    · have hline : (1 : Int) + (before ++ p.text).count '\n' =
          1 + before.count '\n' + (Lexeme.cut c cs).1.lineCount := by
        rw [hp.lines, hp.text, List.count_append]
        push_cast
        ring
      have hpos : ((before ++ p.text).length : Int) =
          before.length + (Lexeme.cut c cs).1.text.length := by
        rw [hp.text, List.length_append]
        push_cast
        ring
      rw [hline, hpos] at htokens
      rw [tokensFrom, htokens, ← hp.token, List.filterMap_cons]
      cases p.token? <;> rfl
    · rw [List.flatMap_cons, hreports, ← hp.report, List.filterMap_cons]
      cases p.illegal? <;> rfl
    · rw [lineTotal, List.map_cons, List.sum_cons, hp.lines, ← hp.text]
      rw [← hcut, List.count_append, htext]
      exact congrArg _ hlines

/-! ## asking a lexer -/

/-- the answers of a lexer that is asked for tokens until there is none, and the lexer after that -/
inductive Asked : Lexer → List Reading → Lexer → Prop
  | last {l l' : Lexer} {r : Reading} : l.read = (.ok r, l') → r.token = none → Asked l [r] l'
  | next {l l' l'' : Lexer} {r : Reading} {rs : List Reading} :
      l.read = (.ok r, l') → r.token.isSome → Asked l' rs l'' → Asked l (r :: rs) l''

/-- A reading passes over whole lexemes: it leaves the lexemes of the rest of the text. -/
theorem firstReading_rest (cs : List Char) : ∀ (line pos : Int) (seen : List Char),
    (firstReading line pos seen (lexemes cs)).1.token.isSome →
      ∃ pre rest, cs = pre ++ rest ∧
        (firstReading line pos seen (lexemes cs)).2 = lexemes rest ∧
        (firstReading line pos seen (lexemes cs)).1.pos = pos + pre.length := by
  fun_induction lexemes cs with
  | case1 => intro line pos seen h; cases h
  | case2 c cs ih =>
    intro line pos seen h
    have hcut := Lexeme.cut_text c cs
    rw [firstReading] at h ⊢
    cases ht : (Lexeme.cut c cs).1.token? line pos with
    | some t => exact ⟨_, _, hcut.symm, rfl, rfl⟩
    | none =>
      rw [ht] at h
      obtain ⟨pre, rest, heq, hrest, hpos⟩ := ih _ _ _ h
      refine ⟨(Lexeme.cut c cs).1.text ++ pre, rest, ?_, hrest, hpos.trans ?_⟩
      · rw [List.append_assoc, ← heq, hcut]
      · rw [List.length_append]
        push_cast
        ring

/-- no line and no report is lost between the readings -/
theorem firstReading_totals (xs : List Lexeme) : ∀ (line pos : Int) (seen : List Char),
    (firstReading line pos seen xs).1.line + lineTotal (firstReading line pos seen xs).2 =
        line + lineTotal xs ∧
      (firstReading line pos seen xs).1.illegal ++
          (firstReading line pos seen xs).2.flatMap Lexeme.reported =
        seen.reverse ++ xs.flatMap Lexeme.reported := by
  induction xs with
  | nil => exact fun line pos seen => ⟨rfl, rfl⟩
  | cons x xs ih =>
    intro line pos seen
    rw [firstReading]
    cases ht : x.token? line pos with
    | some t =>
      simp [lineTotal, Lexeme.lineCount_of_token? ht, Lexeme.reported_of_token? ht]
    | none =>
      obtain ⟨hline, hseen⟩ := ih (line + x.lineCount) (pos + x.text.length) (x.reported ++ seen)
      have hrev : x.reported.reverse = x.reported := by cases x <;> rfl
      refine ⟨hline.trans ?_, hseen.trans ?_⟩
      · simp only [lineTotal, List.map_cons, List.sum_cons]
        push_cast
        ring
      · rw [List.reverse_append, hrev, List.flatMap_cons, List.append_assoc]

theorem firstReading_end {xs : List Lexeme} {line pos : Int} {seen : List Char}
    (h : (firstReading line pos seen xs).1.token = none) :
    (firstReading line pos seen xs).2 = [] := by
  induction xs generalizing line pos seen with
  | nil => rfl
  | cons x xs ih =>
    rw [firstReading] at h ⊢
    cases ht : x.token? line pos with
    | some t =>
      rw [ht] at h
      cases h
    | none =>
      rw [ht] at h
      exact ih h

theorem illegal_readings (line pos : Int) (xs : List Lexeme) :
    (readings line pos xs).flatMap Reading.illegal = xs.flatMap Lexeme.reported := by
  fun_induction readings line pos xs with
  | case1 line pos xs r h ih =>
    rw [List.flatMap_cons, ih]
    exact (firstReading_totals xs line pos []).2
  | case2 line pos xs r h =>
    have hend : r.2 = [] := firstReading_end (by simpa using h)
    have htotals := (firstReading_totals xs line pos []).2
    rw [show (firstReading line pos [] xs).2 = [] from hend] at htotals
    simpa using htotals

/-- asking inside a text reads the lexemes of the rest of it -/
theorem Lexer.read_eq (pre cs : List Char) (line : Int) :
    (Lexer.mk (some (pre ++ cs)) pre.length line).read =
      let r := (firstReading line pre.length [] (lexemes cs)).1
      (.ok r, ⟨some (pre ++ cs), r.pos, r.line⟩) := by
  rw [Lexer.read]
  have hpos : ¬ (pre.length : Int) < 0 := by omega
  simp only [hpos, if_false, List.length_append]
  cases cs with
  | nil =>
    rw [if_pos (by simp), lexemes]
    rfl
  | cons c cs =>
    rw [if_neg (by simp only [List.length_cons]; omega), Int.toNat_natCast, List.drop_left]

/-- A lexer asked from a place in its text answers with the readings from there on, and ends with
all the lines counted. -/
theorem asked_readings (line : Int) (pre cs : List Char) :
    ∃ l, Asked ⟨some (pre ++ cs), pre.length, line⟩ (readings line pre.length (lexemes cs)) l ∧
      l.line = line + lineTotal (lexemes cs) := by
  generalize hpos : (pre.length : Int) = pos
  generalize hxs : lexemes cs = xs
  fun_induction readings line pos xs generalizing pre cs with
  | case1 line pos xs r h ih =>
    subst hxs hpos
    obtain ⟨mid, rest, rfl, hrest, hpos⟩ := firstReading_rest cs line pre.length [] h
    have hmid : ((pre ++ mid).length : Int) = r.1.pos := by
      rw [List.length_append]
      push_cast
      exact hpos.symm
    obtain ⟨l, hl, hline⟩ := ih (pre ++ mid) rest hmid hrest.symm
    rw [List.append_assoc] at hl
    refine ⟨l, .next (Lexer.read_eq pre (mid ++ rest) line) h hl, hline.trans ?_⟩
    exact (firstReading_totals _ line pre.length []).1
  | case2 line pos xs r h =>
    subst hxs hpos
    have hnone : r.1.token = none := by simpa using h
    refine ⟨_, .last (Lexer.read_eq pre cs line) hnone, ?_⟩
    have htotals := (firstReading_totals (lexemes cs) line pre.length []).1
    rw [firstReading_end hnone] at htotals
    simpa [lineTotal] using htotals

/-- The report of some readings is one line for each illegal character. -/
theorem join_report (rs : List Reading) :
    String.join (rs.map Reading.report) =
      String.join ((rs.flatMap Reading.illegal).map illegalLine) := by
  induction rs with
  | nil => rfl
  | cons r rs ih =>
    rw [List.map_cons, String.join_cons, ih, List.flatMap_cons, List.map_append,
      String.join_append]
    rfl

/-- **A lexer accounts for every character.**  A new lexer asked for the tokens of a text until
there is none splits the text into pieces, each in its place.  The tokens it gives are those of the
pieces, it prints one line for each illegal character, and at the end it has counted the
newlines. -/
theorem lexer_accounts_for_text (s : String) : ∃ (l : Lexer) (ps : List Piece),
    Asked (({} : Lexer).input s) (readText 1 s.toList) l ∧
    ps.flatMap Piece.text = s.toList ∧
    (∀ pre p post, ps = pre ++ p :: post →
      p.FitsAt (pre.flatMap Piece.text) ((p :: post).flatMap Piece.text)) ∧
    (readText 1 s.toList).filterMap Reading.token = ps.filterMap Piece.token? ∧
    String.join ((readText 1 s.toList).map Reading.report) =
      String.join ((ps.filterMap Piece.illegal?).map illegalLine) ∧
    l.line = 1 + s.toList.count '\n' := by
  obtain ⟨ps, htext, hps, htokens, hreports, hlines⟩ := exists_pieces s.toList []
  obtain ⟨l, hl, hline⟩ := asked_readings 1 [] s.toList
  refine ⟨l, ps, hl, htext, hps, ?_, ?_, ?_⟩
  · rw [readText, filterMap_readings]
    exact htokens
  · rw [join_report, readText, illegal_readings, hreports]
  · rw [hline, hlines]

end Pl0Kit
