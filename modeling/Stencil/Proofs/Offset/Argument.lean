import Stencil.Argument
import Stencil.Proofs.Checks
import Stencil.Proofs.Offset.Path

/-!
# Arguments by offsets

The readers of arguments written with offsets.  The first byte of a token is taken without a test
before it, which is in range since no token is empty.

Results: `split_eq`, `ne_nil_of_mem_split` and `readArgument_eq`.
-/

namespace Stencil
namespace Offset

/-! ## Tokens -/

/-- The tokens read so far, with the one that is being read if it holds anything. -/
def flush (current : Bytes) (tokens : List Bytes) : List Bytes :=
  if current.isEmpty then tokens else tokens ++ [current]

/-- The tokens of a call, read from an offset on and from inside of something. -/
def splitFrom (s : Bytes) (inside : Argument.Inside) (current : Bytes) (tokens : List Bytes)
    (i : Nat) : Checked Argument.Inside (List Bytes) :=
  if _h : i < s.length then do
    let b ← at? s i
    match inside with
    | .text mark =>
      if b = Ascii.backslash then
        if i + 1 < s.length then
          splitFrom s inside (current ++ [b, ← at? s (i + 1)]) tokens (i + 2)
        else splitFrom s inside (current ++ [b]) tokens (i + 1)
      else splitFrom s (if b = mark then .nothing else inside) (current ++ [b]) tokens (i + 1)
    | .groups n =>
      let rest ← from? s i
      if Bytes.startsWith Form.plain.opener rest then
        splitFrom s (.groups (n + 1)) (current ++ Form.plain.opener) tokens (i + 2)
      else if Bytes.startsWith Form.plain.closer rest then
        splitFrom s (match n with | 0 => .nothing | n + 1 => .groups n)
          (current ++ Form.plain.closer) tokens (i + 2)
      else splitFrom s inside (current ++ [b]) tokens (i + 1)
    | .nothing =>
      let rest ← from? s i
      if Bytes.startsWith Form.plain.opener rest then
        splitFrom s (.groups 0) (current ++ Form.plain.opener) tokens (i + 2)
      else if b = Ascii.quote ∨ b = Ascii.apostrophe then
        splitFrom s (.text b) (current ++ [b]) tokens (i + 1)
      else if Argument.isSpace b then splitFrom s .nothing [] (flush current tokens) (i + 1)
      else splitFrom s .nothing (current ++ [b]) tokens (i + 1)
  else if inside = .nothing then pure (flush current tokens)
  else .of (.error inside)
termination_by s.length - i

/-- The tokens of a call. -/
def split (call : Bytes) : Checked ArgumentError (List Bytes) :=
  (splitFrom call .nothing [] [] 0).adapt fun inside =>
    match inside with
    | .text _ => .unterminatedText call
    | _ => .unclosedGroup call

/-- What a split of the rest gives together with what was read before. -/
def gather (current : Bytes) (tokens : List Bytes) (r : Except Argument.Inside Argument.Tokens) :
    Except Argument.Inside (List Bytes) :=
  r.map fun t => tokens ++ (t.extend current).all

theorem gather_extend
    (current front : Bytes) (tokens : List Bytes) (r : Except Argument.Inside Argument.Tokens) :
    gather current tokens (r.map (Argument.Tokens.extend front)) =
      gather (current ++ front) tokens r := by
  cases r with
  | error inside =>
      rfl
  | ok t =>
      simp only [gather, Except.map, Argument.Tokens.extend, List.append_assoc]

theorem gather_flush
    (current : Bytes) (tokens : List Bytes) (r : Except Argument.Inside Argument.Tokens) :
    gather current tokens (r.map fun t => ([], t.all)) = gather [] (flush current tokens) r := by
  cases r with
  | error inside =>
      rfl
  | ok t =>
      cases current with
      | nil =>
          rfl
      | cons b rest =>
          simp [gather, Except.map, flush, Argument.Tokens.extend, Argument.Tokens.all]

theorem not_startsWith_pair
    {x b : UInt8} {rest : Bytes}
    (h : ∀ more, b = x → rest = x :: more → False) :
    ¬ Bytes.startsWith [x, x] (b :: rest) = true := by
  intro hstart
  obtain ⟨more, hmore⟩ := Bytes.startsWith_iff.1 hstart
  obtain ⟨hb, hrest⟩ := List.cons.inj hmore
  exact h more hb hrest

theorem not_startsWith_opener
    {b : UInt8} {rest : Bytes}
    (h : ∀ more, b = Ascii.lbrace → rest = Ascii.lbrace :: more → False) :
    ¬ Bytes.startsWith Form.plain.opener (b :: rest) = true :=
  not_startsWith_pair h

theorem not_startsWith_closer
    {b : UInt8} {rest : Bytes}
    (h : ∀ more, b = Ascii.rbrace → rest = Ascii.rbrace :: more → False) :
    ¬ Bytes.startsWith Form.plain.closer (b :: rest) = true :=
  not_startsWith_pair h

section Step

variable (done rest : Bytes) (b : UInt8) (current : Bytes) (tokens : List Bytes)

theorem splitFrom_text
    (mark : UInt8) :
    splitFrom (done ++ b :: rest) (.text mark) current tokens done.length =
      if b = Ascii.backslash then
        match rest with
        | [] => splitFrom (done ++ b :: rest) (.text mark) (current ++ [b]) tokens (done.length + 1)
        | c :: _ =>
          splitFrom (done ++ b :: rest) (.text mark) (current ++ [b, c]) tokens (done.length + 2)
      else
        splitFrom (done ++ b :: rest) (if b = mark then .nothing else .text mark) (current ++ [b])
          tokens (done.length + 1) := by
  have hlt : done.length < (done ++ b :: rest).length := by
    simp
  rw [splitFrom, dif_pos hlt, at?_append done rest b rfl, Checked.lift_some, Checked.of_ok_bind]
  cases rest with
  | nil =>
      simp
  | cons c more =>
      have hnext : at? (done ++ b :: c :: more) (done.length + 1) = some c := by
        have h := at?_append (done ++ [b]) more c rfl
        simpa using h
      simp [hnext, Checked.lift_some, Checked.of_ok_bind]

theorem splitFrom_groups
    (n : Nat) :
    splitFrom (done ++ b :: rest) (.groups n) current tokens done.length =
      if Bytes.startsWith Form.plain.opener (b :: rest) then
        splitFrom (done ++ b :: rest) (.groups (n + 1)) (current ++ Form.plain.opener) tokens
          (done.length + 2)
      else if Bytes.startsWith Form.plain.closer (b :: rest) then
        splitFrom (done ++ b :: rest) (match n with | 0 => .nothing | n + 1 => .groups n)
          (current ++ Form.plain.closer) tokens (done.length + 2)
      else
        splitFrom (done ++ b :: rest) (.groups n) (current ++ [b]) tokens (done.length + 1) := by
  have hlt : done.length < (done ++ b :: rest).length := by
    simp
  rw [splitFrom, dif_pos hlt, at?_append done rest b rfl, Checked.lift_some, Checked.of_ok_bind]
  simp only
  rw [from?_append done (b :: rest) rfl, Checked.lift_some, Checked.of_ok_bind]

theorem splitFrom_nothing :
    splitFrom (done ++ b :: rest) .nothing current tokens done.length =
      if Bytes.startsWith Form.plain.opener (b :: rest) then
        splitFrom (done ++ b :: rest) (.groups 0) (current ++ Form.plain.opener) tokens
          (done.length + 2)
      else if b = Ascii.quote ∨ b = Ascii.apostrophe then
        splitFrom (done ++ b :: rest) (.text b) (current ++ [b]) tokens (done.length + 1)
      else if Argument.isSpace b then
        splitFrom (done ++ b :: rest) .nothing [] (flush current tokens) (done.length + 1)
      else
        splitFrom (done ++ b :: rest) .nothing (current ++ [b]) tokens (done.length + 1) := by
  have hlt : done.length < (done ++ b :: rest).length := by
    simp
  rw [splitFrom, dif_pos hlt, at?_append done rest b rfl, Checked.lift_some, Checked.of_ok_bind]
  simp only
  rw [from?_append done (b :: rest) rfl, Checked.lift_some, Checked.of_ok_bind]

end Step

/-- At the end of the call, its tokens are given unless it ends inside of something. -/
theorem splitFrom_end
    (s : Bytes) (inside : Argument.Inside) (current : Bytes) (tokens : List Bytes) :
    splitFrom s inside current tokens s.length =
      .of (gather current tokens (Argument.splitFrom inside [])) := by
  rw [splitFrom, dif_neg (Nat.lt_irrefl _)]
  cases inside with
  | nothing =>
      rw [if_pos rfl]
      cases current with
      | nil =>
          simp [flush, gather, Argument.splitFrom, Except.map, Argument.Tokens.extend,
            Argument.Tokens.all, pure]
      | cons b current =>
          simp [flush, gather, Argument.splitFrom, Except.map, Argument.Tokens.extend,
            Argument.Tokens.all, pure]
  | text mark =>
      rfl
  | groups n =>
      rfl

/-- The split goes on behind some bytes that were read. -/
theorem splitFrom_append
    {rest : Bytes} {inside : Argument.Inside}
    (h : ∀ done current tokens, splitFrom (done ++ rest) inside current tokens done.length =
      .of (gather current tokens (Argument.splitFrom inside rest)))
    (done front current : Bytes) (tokens : List Bytes) :
    splitFrom (done ++ (front ++ rest)) inside (current ++ front) tokens
        (done.length + front.length) =
      .of (gather current tokens
        ((Argument.splitFrom inside rest).map (Argument.Tokens.extend front))) := by
  have hmore := h (done ++ front) (current ++ front) tokens
  rwa [List.append_assoc, List.length_append, ← gather_extend] at hmore

theorem splitFrom_eq
    (inside : Argument.Inside) (done rest current : Bytes) (tokens : List Bytes) :
    splitFrom (done ++ rest) inside current tokens done.length =
      .of (gather current tokens (Argument.splitFrom inside rest)) := by
  have hopener : ∀ s : Bytes, Bytes.startsWith Form.plain.opener
      (Ascii.lbrace :: Ascii.lbrace :: s) = true := fun _ => rfl
  have hcloser : ∀ s : Bytes, Bytes.startsWith Form.plain.closer
      (Ascii.rbrace :: Ascii.rbrace :: s) = true := fun _ => rfl
  have hother : ∀ s : Bytes, ¬ Bytes.startsWith Form.plain.opener
      (Ascii.rbrace :: Ascii.rbrace :: s) = true := fun _ => Bool.false_ne_true
  -- Both readers look at the same bytes.  One keeps what it has read, the other puts it in front of
  -- what it gets from the rest; `gather` brings the two together.
  fun_induction Argument.splitFrom inside rest generalizing done current tokens with
  | case1 =>
      rw [List.append_nil]
      exact splitFrom_end done .nothing current tokens
  | case2 inside hinside =>
      rw [List.append_nil, splitFrom_end, Argument.splitFrom]
      exact hinside
  | case3 mark =>
      have hend := splitFrom_end (done ++ [Ascii.backslash]) (.text mark)
        (current ++ [Ascii.backslash]) tokens
      rw [splitFrom_text, if_pos rfl]
      rw [List.length_append] at hend
      exact hend
  | case4 mark c rest ih =>
      rw [splitFrom_text, if_pos rfl]
      exact splitFrom_append ih done [Ascii.backslash, c] current tokens
  | case5 mark b rest hb ih =>
      rw [splitFrom_text, if_neg hb]
      exact splitFrom_append ih done [b] current tokens
  | case6 rest ih =>
      have h := splitFrom_nothing done (Ascii.lbrace :: rest) Ascii.lbrace current tokens
      rw [if_pos (hopener rest)] at h
      exact h.trans (splitFrom_append ih done Form.plain.opener current tokens)
  | case7 n rest ih =>
      have h := splitFrom_groups done (Ascii.lbrace :: rest) Ascii.lbrace current tokens n
      rw [if_pos (hopener rest)] at h
      exact h.trans (splitFrom_append ih done Form.plain.opener current tokens)
  | case8 n rest ih =>
      have h := splitFrom_groups done (Ascii.rbrace :: rest) Ascii.rbrace current tokens n
      rw [if_neg (hother rest), if_pos (hcloser rest)] at h
      exact h.trans (splitFrom_append ih done Form.plain.closer current tokens)
  | case9 n b rest hopen hclose ih =>
      rw [splitFrom_groups, if_neg (not_startsWith_opener hopen),
        if_neg (not_startsWith_closer hclose)]
      exact splitFrom_append ih done [b] current tokens
  | case10 b rest hopen hquote ih =>
      rw [splitFrom_nothing, if_neg (not_startsWith_opener hopen), if_pos hquote]
      exact splitFrom_append ih done [b] current tokens
  | case11 b rest hopen hquote hspace ih =>
      have h := ih (done ++ [b]) [] (flush current tokens)
      rw [← gather_flush, List.append_assoc, List.length_append] at h
      rw [splitFrom_nothing, if_neg (not_startsWith_opener hopen), if_neg hquote, if_pos hspace]
      exact h
  | case12 b rest hopen hquote hspace ih =>
      rw [splitFrom_nothing, if_neg (not_startsWith_opener hopen), if_neg hquote, if_neg hspace]
      exact splitFrom_append ih done [b] current tokens

theorem split_eq
    (call : Bytes) :
    split call = .of (Argument.split call) := by
  have h := splitFrom_eq .nothing [] call [] []
  rw [List.nil_append, List.length_nil] at h
  unfold split Argument.split
  rw [h, Checked.adapt_of]
  cases Argument.splitFrom .nothing call with
  | ok t =>
      rfl
  | error inside =>
      cases inside <;> rfl

/-! ## No token is empty -/

/-- A result that has no empty token behind the one that is being read. -/
def Filled (r : Except Argument.Inside Argument.Tokens) : Prop :=
  ∀ t, r = .ok t → ∀ token ∈ t.2, token ≠ []

theorem ne_nil_of_mem_all
    {t : Argument.Tokens}
    (h : ∀ token ∈ t.2, token ≠ []) :
    ∀ token ∈ t.all, token ≠ [] := by
  unfold Argument.Tokens.all
  split
  · exact h
  · next hfirst =>
      refine List.forall_mem_cons.2 ⟨?_, h⟩
      exact fun hnil => hfirst (List.isEmpty_iff.2 hnil)

theorem Filled.extend
    {r : Except Argument.Inside Argument.Tokens}
    (hr : Filled r)
    (front : Bytes) :
    Filled (r.map (Argument.Tokens.extend front)) := by
  intro t ht
  obtain ⟨rest, hrest, rfl⟩ := map_eq_ok_iff.1 ht
  exact hr rest hrest

theorem filled_splitFrom
    (inside : Argument.Inside) (s : Bytes) :
    Filled (Argument.splitFrom inside s) := by
  fun_induction Argument.splitFrom inside s with
  | case1 =>
      intro t ht
      obtain rfl := Except.ok.inj ht
      exact fun token htoken => absurd htoken List.not_mem_nil
  | case2 inside hinside =>
      exact fun t ht => nomatch ht
  | case3 mark =>
      exact fun t ht => nomatch ht
  | case4 mark c rest ih =>
      exact ih.extend _
  | case5 mark b rest hb ih =>
      exact ih.extend _
  | case6 rest ih =>
      exact ih.extend _
  | case7 n rest ih =>
      exact ih.extend _
  | case8 n rest ih =>
      exact ih.extend _
  | case9 n b rest hopen hclose ih =>
      exact ih.extend _
  | case10 b rest hopen hquote ih =>
      exact ih.extend _
  | case11 b rest hopen hquote hspace ih =>
      intro t ht
      obtain ⟨rest, hrest, rfl⟩ := map_eq_ok_iff.1 ht
      exact ne_nil_of_mem_all (ih rest hrest)
  | case12 b rest hopen hquote hspace ih =>
      exact ih.extend _

theorem ne_nil_of_mem_split
    {call : Bytes} {tokens : List Bytes}
    (h : Argument.split call = .ok tokens) :
    ∀ token ∈ tokens, token ≠ [] := by
  unfold Argument.split at h
  split at h
  · next t ht =>
      obtain rfl := Except.ok.inj h
      exact ne_nil_of_mem_all (filled_splitFrom .nothing call t ht)
  · cases h
  · cases h

/-! ## Literals -/

/-- The text between single quotes as it stands between double quotes, from an offset on. -/
def requoteFrom (body : Bytes) (i : Nat) : Option Bytes :=
  if _h : i < body.length then do
    let b ← at? body i
    if b = Ascii.backslash ∧ i + 1 < body.length then
      if (← at? body (i + 1)) = Ascii.apostrophe then
        return Ascii.apostrophe :: (← requoteFrom body (i + 2))
      else return (← slice? body i (i + 2)) ++ (← requoteFrom body (i + 2))
    else if b = Ascii.quote then
      return Ascii.backslash :: Ascii.quote :: (← requoteFrom body (i + 1))
    else return b :: (← requoteFrom body (i + 1))
  else some []
termination_by body.length - i

/-- The byte string that a text in single quotes stands for. -/
def unquoteSingle? (token : Bytes) : Option (Option Bytes) :=
  if token.length < 2 then some none
  else do
    let last : Int := token.length - 1
    if (← at? token last) = Ascii.apostrophe then
      let body ← slice? token 1 last
      return Text.unquote? (Ascii.quote :: (← requoteFrom body 0) ++ [Ascii.quote])
    else return none

/-- The literal that a token writes, if it writes one. -/
def literal? (token : Bytes) : Checked ArgumentError (Option Literal) :=
  if token = utf8 "true" then pure (some (.bool true))
  else if token = utf8 "false" then pure (some (.bool false))
  else if token = utf8 "null" ∨ token = utf8 "undefined" then pure (some .null)
  else do
    let b ← at? token 0
    if b = Ascii.quote then
      match Text.unquote? token with
      | some s => pure (some (.text s))
      | none => .of (.error (.badText token))
    else if b = Ascii.apostrophe then
      match ← unquoteSingle? token with
      | some s => pure (some (.text s))
      | none => .of (.error (.badText token))
    else if Ascii.isDigit b ∨ b = Ascii.minus ∨ b = Ascii.plus ∨ b = Ascii.dot then
      match Bytes.int64? token with
      | some n => pure (some (.int n))
      | none => pure ((Binary64.ofNumeral? token).map Literal.float)
    else pure none

theorem requoteFrom_escape
    (done rest : Bytes) (c : UInt8) :
    requoteFrom (done ++ Ascii.backslash :: c :: rest) done.length =
      (requoteFrom (done ++ Ascii.backslash :: c :: rest) (done.length + 2)).map fun more =>
        (if c = Ascii.apostrophe then [Ascii.apostrophe] else [Ascii.backslash, c]) ++ more := by
  have hlt : done.length < (done ++ Ascii.backslash :: c :: rest).length := by
    simp
  have hnext : at? (done ++ Ascii.backslash :: c :: rest) (done.length + 1) = some c := by
    have h := at?_append (done ++ [Ascii.backslash]) rest c rfl
    simpa using h
  have hpair : slice? (done ++ Ascii.backslash :: c :: rest) done.length (done.length + 2) =
      some [Ascii.backslash, c] :=
    slice?_append done [Ascii.backslash, c] rest rfl rfl
  have hguard : Ascii.backslash = Ascii.backslash ∧
      done.length + 1 < (done ++ Ascii.backslash :: c :: rest).length := by
    simp
  rw [requoteFrom, dif_pos hlt, at?_append done (c :: rest) _ rfl, Option.bind_eq_bind,
    Option.bind_some, if_pos hguard, hnext, hpair]
  simp only [Option.bind_eq_bind, Option.bind_some]
  split
  · cases requoteFrom (done ++ Ascii.backslash :: c :: rest) (done.length + 2) <;> rfl
  · cases requoteFrom (done ++ Ascii.backslash :: c :: rest) (done.length + 2) <;> rfl

theorem requoteFrom_byte
    (done : Bytes) {b : UInt8} {rest : Bytes}
    (h : b = Ascii.backslash → rest = []) :
    requoteFrom (done ++ b :: rest) done.length =
      (requoteFrom (done ++ b :: rest) (done.length + 1)).map fun more =>
        (if b = Ascii.quote then [Ascii.backslash, Ascii.quote] else [b]) ++ more := by
  have hlt : done.length < (done ++ b :: rest).length := by
    simp
  have hguard : ¬ (b = Ascii.backslash ∧ done.length + 1 < (done ++ b :: rest).length) := by
    rintro ⟨hb, hlength⟩
    simp [h hb] at hlength
  rw [requoteFrom, dif_pos hlt, at?_append done rest b rfl, Option.bind_eq_bind,
    Option.bind_some, if_neg hguard]
  split
  · cases requoteFrom (done ++ b :: rest) (done.length + 1) <;> rfl
  · cases requoteFrom (done ++ b :: rest) (done.length + 1) <;> rfl

theorem requoteFrom_eq
    (done rest : Bytes) :
    requoteFrom (done ++ rest) done.length = some (Argument.requote rest) := by
  fun_induction Argument.requote rest generalizing done with
  | case1 rest ih =>
      have hrest := ih (done ++ [Ascii.backslash, Ascii.apostrophe])
      rw [List.append_assoc, List.length_append] at hrest
      refine (requoteFrom_escape done rest Ascii.apostrophe).trans ?_
      exact congrArg (Option.map _) hrest
  | case2 c rest hc ih =>
      have hrest := ih (done ++ [Ascii.backslash, c])
      rw [List.append_assoc, List.length_append] at hrest
      have hplain : ¬ c = Ascii.apostrophe := hc
      refine (requoteFrom_escape done rest c).trans ?_
      rw [if_neg hplain]
      exact congrArg (Option.map _) hrest
  | case3 rest ih =>
      have hrest := ih (done ++ [Ascii.quote])
      rw [List.append_assoc, List.length_append] at hrest
      have hquote : Ascii.quote = Ascii.backslash → rest = [] := fun h => absurd h (by decide)
      refine (requoteFrom_byte done hquote).trans ?_
      exact congrArg (Option.map _) hrest
  | case4 b rest hquoted hescaped hquote ih =>
      have hrest := ih (done ++ [b])
      rw [List.append_assoc, List.length_append] at hrest
      have hlone : b = Ascii.backslash → rest = [] := by
        intro hb
        cases rest with
        | nil =>
            rfl
        | cons c more =>
            exact absurd rfl (hescaped c more hb)
      have hplain : ¬ b = Ascii.quote := hquote
      rw [requoteFrom_byte done hlone, if_neg hplain]
      exact congrArg (Option.map _) hrest
  | case5 =>
      rw [List.append_nil, requoteFrom, dif_neg (Nat.lt_irrefl _)]

theorem unquoteSingle?_eq
    (rest : Bytes) :
    unquoteSingle? (Ascii.apostrophe :: rest) =
      some (Argument.unquoteSingle? (Ascii.apostrophe :: rest)) := by
  rcases List.eq_nil_or_concat rest with rfl | ⟨body, last, hrest⟩
  · rfl
  · rw [List.concat_eq_append] at hrest
    subst hrest
    have hlength : ¬ (Ascii.apostrophe :: (body ++ [last])).length < 2 := by
      simp
    have hlast : at? (Ascii.apostrophe :: (body ++ [last]))
        ((Ascii.apostrophe :: (body ++ [last])).length - 1) = some last := by
      refine at?_append (Ascii.apostrophe :: body) [] last ?_
      simp
    have hbody : slice? (Ascii.apostrophe :: (body ++ [last])) 1
        ((Ascii.apostrophe :: (body ++ [last])).length - 1) = some body := by
      refine slice?_append [Ascii.apostrophe] body [last] rfl ?_
      simp only [List.length_cons, List.length_append, List.length_nil]
      omega
    have hrequote : requoteFrom body 0 = some (Argument.requote body) := requoteFrom_eq [] body
    -- The pattern of the token is a numeral, which only unfolding the definition opens.
    have hmodel : Argument.unquoteSingle? (Ascii.apostrophe :: (body ++ [last])) =
        if (body ++ [last]).getLast? = some Ascii.apostrophe then
          Text.unquote? (Ascii.quote :: Argument.requote (body ++ [last]).dropLast ++ [Ascii.quote])
        else none := rfl
    rw [hmodel, List.getLast?_concat, List.dropLast_concat]
    unfold unquoteSingle?
    rw [if_neg hlength]
    simp only [hlast, hbody, hrequote, Option.bind_eq_bind, Option.bind_some, Option.some.injEq]
    split <;> rfl

/-- The first byte of a token is read without a test, so the token must have one. -/
theorem literal?_eq
    {token : Bytes}
    (htoken : token ≠ []) :
    literal? token = .of (Argument.literal? token) := by
  cases token with
  | nil =>
      exact absurd rfl htoken
  | cons b rest =>
      unfold literal? Argument.literal?
      rw [at?_cons_zero, Checked.lift_some, Checked.of_ok_bind]
      split
      · rfl
      · split
        · rfl
        · split
          · rfl
          · simp only
            split
            · cases Text.unquote? (b :: rest) <;> rfl
            · split
              · next hb =>
                  subst hb
                  rw [unquoteSingle?_eq, Checked.lift_some, Checked.of_ok_bind]
                  cases Argument.unquoteSingle? (Ascii.apostrophe :: rest) <;> rfl
              · split
                · cases Bytes.int64? (b :: rest) <;> rfl
                · rfl

/-! ## Arguments -/

/-- What stands between `n` braces on either side. -/
def unbraced? (n : Nat) (token : Bytes) : Option (Option Bytes) :=
  if 2 * n ≤ token.length ∧ Bytes.startsWith (List.replicate n Ascii.lbrace) token ∧
      Bytes.endsWith (List.replicate n Ascii.rbrace) token then do
    let inner ← slice? token n (token.length - n)
    return some (Text.trim inner)
  else some none

/-- What stands between the braces of a group. -/
def group? (token : Bytes) : Option (Option Bytes) := do
  match ← unbraced? 3 token with
  | some inner => return some inner
  | none => unbraced? 2 token

/-- Reads the value of an argument. -/
def readValue (token : Bytes) : Checked ArgumentError (Operand PathExpr Literal) :=
  if Bytes.startsWith [Ascii.lbrace, Ascii.lbrace] token then do
    match ← group? token with
    | some inner => (fun p => .path (.raw p)) <$> (readPath inner).adapt .path
    | none => .of (.error (.malformed token))
  else do
    match ← literal? token with
    | some l => pure (.literal l)
    | none => .path <$> (readPath token).adapt .path

/-- The name of a token `name=value`, and its value. -/
def splitName (token : Bytes) : Option (Option Bytes × Bytes) :=
  match index? [Ascii.equals] token with
  | none => some (none, token)
  | some i => do
    let name ← slice? token 0 i
    if Argument.isIdentifier name then
      return (some name, ← from? token (i + 1))
    else return (none, token)

/-- Reads one token. -/
def readArgument (token : Bytes) : Checked ArgumentError Argument := do
  match ← splitName token with
  | (some name, []) => .of (.error (.missingValue name))
  | (name, value) => (fun v => ⟨name, v⟩) <$> readValue value

theorem unbraced?_eq
    (n : Nat) (token : Bytes) :
    unbraced? n token = some (Argument.unbraced? n token) := by
  unfold unbraced? Argument.unbraced?
  split
  · next h =>
      have hrange : (0 : Int) ≤ n ∧ (n : Int) ≤ token.length - n ∧
          (token.length : Int) - n ≤ token.length := by
        omega
      have hcount : ((token.length : Int) - n - n).toNat = token.length - 2 * n := by
        omega
      rw [slice?, if_pos hrange, hcount]
      rfl
  · rfl

theorem group?_eq
    (token : Bytes) :
    group? token = some ((Argument.unbraced? 3 token).or (Argument.unbraced? 2 token)) := by
  unfold group?
  rw [unbraced?_eq, unbraced?_eq]
  cases Argument.unbraced? 3 token <;> rfl

theorem readPath_adapt
    (text : Bytes) :
    (readPath text).adapt ArgumentError.path = .of (Argument.readPath text) := by
  rw [readPath_eq, Checked.adapt_of]
  unfold Argument.readPath
  cases PathExpr.read text <;> rfl

theorem readValue_eq
    {token : Bytes}
    (htoken : token ≠ []) :
    readValue token = .of (Argument.readValue token) := by
  unfold readValue Argument.readValue
  split
  · rw [group?_eq, Checked.lift_some, Checked.of_ok_bind]
    cases (Argument.unbraced? 3 token).or (Argument.unbraced? 2 token) with
    | none =>
        rfl
    | some inner =>
        simp only [readPath_adapt]
        exact Checked.of_map _ _
  · rw [literal?_eq htoken]
    refine Checked.of_bind fun l _ => ?_
    cases l with
    | some l =>
        rfl
    | none =>
        simp only [readPath_adapt]
        exact Checked.of_map _ _

theorem splitName_eq
    (token : Bytes) :
    splitName token = some (Argument.splitName token) := by
  unfold splitName Argument.splitName index?
  cases hcut : Bytes.cut? [Ascii.equals] token with
  | none =>
      rfl
  | some parts =>
      obtain ⟨name, value⟩ := parts
      obtain rfl := Bytes.eq_append_of_cut? hcut
      have hname : slice? (name ++ [Ascii.equals] ++ value) 0 name.length = some name := by
        have h := slice?_append [] name ([Ascii.equals] ++ value) rfl rfl
        simpa using h
      have hvalue : from? (name ++ [Ascii.equals] ++ value) (name.length + 1) = some value := by
        refine from?_append (name ++ [Ascii.equals]) value ?_
        simp
      simp only [Option.map_some, hname, hvalue, Option.bind_eq_bind, Option.bind_some]
      split <;> rfl

theorem value_of_splitName
    {token value : Bytes}
    (h : Argument.splitName token = (none, value)) :
    value = token := by
  unfold Argument.splitName at h
  split at h
  · split at h
    · cases h
    · exact (Prod.mk.inj h).2.symm
  · exact (Prod.mk.inj h).2.symm

theorem readArgument_eq
    {token : Bytes}
    (htoken : token ≠ []) :
    readArgument token = .of (Argument.read token) := by
  unfold readArgument Argument.read
  rw [splitName_eq, Checked.lift_some, Checked.of_ok_bind]
  cases hsplit : Argument.splitName token with
  | mk name value =>
      cases name with
      | none =>
          obtain rfl := value_of_splitName hsplit
          simp only [readValue_eq htoken]
          exact Checked.of_map _ _
      | some name =>
          cases value with
          | nil =>
              rfl
          | cons b rest =>
              simp only [readValue_eq (List.cons_ne_nil b rest)]
              exact Checked.of_map _ _

end Offset
end Stencil
