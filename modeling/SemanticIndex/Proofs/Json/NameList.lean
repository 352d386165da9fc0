import SemanticIndex.Snapshot.Load

namespace SemanticIndex

namespace Json

namespace Token

def pieceOf (c : Char) : Piece :=
  if c.toNat < 0x20 ∧ c ∉ ['\n', '\r', '\t', '\x08', '\x0c'] then .unit c.toNat else .char c

theorem hex?_hexDigit : ∀ n < 16, hex? (hexDigit n) = some n := by
  decide

theorem unit?_hexDigit {n : Nat} (h : n < 0x20) :
    unit? '0' '0' (hexDigit (n / 16)) (hexDigit (n % 16)) = some n := by
  have hzero : hex? '0' = some 0 := by decide
  have hhigh := hex?_hexDigit (n / 16) (by omega)
  have hlow := hex?_hexDigit (n % 16) (by omega)
  simp only [unit?, hzero, hhigh, hlow, Option.bind_eq_bind, Option.bind_some, Option.some.injEq]
  omega

theorem pieces?_escape {e c : Char} (rest : List Char) (he : escaped? e = some c) (hu : e ≠ 'u') :
    pieces? ('\\' :: e :: rest) = (pieces? rest).map fun p => (.char c :: p.1, p.2) := by
  rw [pieces?.eq_def]
  split
  case h_3 h => exact absurd (List.cons.inj (List.cons.inj h).2).1 hu
  case h_4 h =>
    obtain ⟨rfl, rfl⟩ := List.cons.inj (List.cons.inj h).2
    rw [he]
    cases pieces? rest <;> rfl
  case h_5 hne h => exact absurd (List.cons.inj h).2.symm (hne _ _ (List.cons.inj h).1.symm)
  all_goals simp_all

theorem pieces?_char {c : Char} (rest : List Char) (hc : ¬c.toNat < 0x20) (hquote : c ≠ '"')
    (hslash : c ≠ '\\') :
    pieces? (c :: rest) = (pieces? rest).map fun p => (.char c :: p.1, p.2) := by
  rw [pieces?.eq_def]
  split
  case h_5 h =>
    obtain ⟨rfl, rfl⟩ := List.cons.inj h
    rw [if_neg (by simp [hc, hslash])]
    cases pieces? rest <;> rfl
  all_goals simp_all

theorem pieces?_escapeChar (c : Char) (rest : List Char) :
    pieces? (escapeChar c ++ rest) = (pieces? rest).map fun p => (pieceOf c :: p.1, p.2) := by
  unfold escapeChar
  split
  · next h => subst h; exact pieces?_escape rest rfl (by decide)
  split
  · next h => subst h; exact pieces?_escape rest rfl (by decide)
  split
  · next h => subst h; exact pieces?_escape rest rfl (by decide)
  split
  · next h => subst h; exact pieces?_escape rest rfl (by decide)
  split
  · next h => subst h; exact pieces?_escape rest rfl (by decide)
  split
  · next h => subst h; exact pieces?_escape rest rfl (by decide)
  split
  · next h => subst h; exact pieces?_escape rest rfl (by decide)
  split
  · next h =>
    have hp : pieceOf c = .unit c.toNat := if_pos ⟨h, by simp_all⟩
    simp only [List.cons_append, List.nil_append, pieces?, unit?_hexDigit h, hp]
    cases pieces? rest <;> rfl
  · next hquote hslash _ _ _ _ _ h =>
    have hp : pieceOf c = .char c := if_neg fun hc => h hc.1
    rw [hp]
    exact pieces?_char rest h hquote hslash

theorem pieces?_quoted (cs rest : List Char) :
    pieces? (cs.flatMap escapeChar ++ '"' :: rest) = some (cs.map pieceOf, rest) := by
  induction cs with
  | nil => simp [pieces?]
  | cons c cs ih =>
    rw [List.flatMap_cons, List.append_assoc, pieces?_escapeChar, ih]
    rfl

theorem join?_unit {u : Nat} (ps : List Piece) (h : u < 0x20) :
    join? (.unit u :: ps) = (join? ps).map (Char.ofNat u :: ·) := by
  have hhigh : isHigh u = false := by simp [isHigh]; omega
  have hlow : isLow u = false := by simp [isLow]; omega
  cases ps with
  | nil => simp [join?, hhigh, hlow]
  | cons p ps => cases p <;> simp [join?, hhigh, hlow]

theorem join?_map_pieceOf (cs : List Char) : join? (cs.map pieceOf) = some cs := by
  induction cs with
  | nil => rfl
  | cons c cs ih =>
    rw [List.map_cons]
    by_cases hc : c.toNat < 0x20 ∧ c ∉ ['\n', '\r', '\t', '\x08', '\x0c']
    · rw [pieceOf, if_pos hc, join?_unit _ hc.1, ih, Option.map_some, Char.ofNat_toNat]
    · rw [pieceOf, if_neg hc, join?, ih, Option.map_some]

theorem next?_quote (s : String) (rest : List Char) :
    next? ((quote s).toList ++ rest) = some (.string (some s), rest) := by
  have htext : (quote s).toList ++ rest = '"' :: (s.toList.flatMap escapeChar ++ '"' :: rest) := by
    simp [quote]
  simp only [htext, next?, pieces?_quoted, Option.map_some, join?_map_pieceOf, String.ofList_toList]

theorem scan?_cons {fuel : Nat} {c : Char} {cs rest : List Char} {token : Token}
    {tokens : List Token} (hc : isSpace c = false) (hnext : next? (c :: cs) = some (token, rest))
    (hrest : scan? fuel rest = some tokens) :
    scan? (fuel + 1) (c :: cs) = some (token :: tokens) := by
  have hdrop : (c :: cs).dropWhile isSpace = c :: cs :=
    List.dropWhile_cons_of_neg (by simp [hc])
  rw [scan?.eq_def]
  simp only [hdrop, hnext, hrest, Option.map_some]

def ofNames : List String → List Token
  | [] => [.closeArray]
  | [s] => [.string (some s), .closeArray]
  | s :: rest => .string (some s) :: .comma :: ofNames rest

theorem ofNames_cons (s : String) {rest : List String} (h : rest ≠ []) :
    ofNames (s :: rest) = .string (some s) :: .comma :: ofNames rest := by
  cases rest with
  | nil => exact absurd rfl h
  | cons s' rest => rfl

theorem scan?_quote {fuel : Nat} {rest : List Char} {tokens : List Token} (s : String)
    (hrest : scan? fuel rest = some tokens) :
    scan? (fuel + 1) ((quote s).toList ++ rest) = some (.string (some s) :: tokens) := by
  have hnext := next?_quote s rest
  have htext : (quote s).toList = '"' :: (s.toList.flatMap escapeChar ++ ['"']) := by simp [quote]
  rw [htext] at hnext ⊢
  exact scan?_cons (by decide) hnext hrest

theorem scan?_nil (fuel : Nat) : scan? fuel [] = some [] := by
  cases fuel <;> rfl

theorem scan?_closeArray (fuel : Nat) : scan? (fuel + 1) [']'] = some [.closeArray] :=
  scan?_cons (by decide) rfl (scan?_nil fuel)

theorem scan?_renderItems (names : List String) (fuel : Nat)
    (h : (renderItems (names.map .string)).toList.length < fuel) :
    scan? fuel ((renderItems (names.map .string)).toList ++ [']']) = some (ofNames names) := by
  induction names using ofNames.induct generalizing fuel with
  | case1 =>
    obtain ⟨fuel, rfl⟩ := Nat.exists_eq_succ_of_ne_zero (Nat.ne_zero_of_lt h)
    exact scan?_closeArray fuel
  | case2 s =>
    have htext : (renderItems ([s].map .string)).toList = (quote s).toList := by
      simp [renderItems, render]
    rw [htext] at h ⊢
    simp only [quote, String.toList_append, List.length_append] at h
    obtain ⟨fuel, rfl⟩ : ∃ k, fuel = k + 2 := ⟨fuel - 2, by simp at h; omega⟩
    exact scan?_quote s (scan?_closeArray fuel)
  | case3 s rest hne ih =>
    have htext : (renderItems ((s :: rest).map .string)).toList =
        (quote s).toList ++ ',' :: (renderItems (rest.map .string)).toList := by
      cases rest with
      | nil => exact absurd rfl hne
      | cons s' rest => simp [renderItems, render]
    rw [htext] at h ⊢
    simp only [List.length_append, List.length_cons] at h
    obtain ⟨fuel, rfl⟩ : ∃ k, fuel = k + 2 := ⟨fuel - 2, by omega⟩
    have hquote : 0 < (quote s).toList.length := by simp [quote]
    have hrest := ih fuel (by omega)
    rw [ofNames_cons s hne, List.append_assoc, List.cons_append]
    exact scan?_quote s (scan?_cons (by decide) rfl hrest)

end Token

namespace Raw

theorem foldlM_ofNames (names : List String) (items : List Raw) (e : Expect)
    (he : e = .value ∨ e = .valueOrClose) (hne : names ≠ []) :
    (Token.ofNames names).foldlM step? ⟨[.array items], e⟩ =
      some ⟨[], .nothing (.array (items.reverse ++ names.map fun s => .string (some s)))⟩ := by
  have hstring (s : String) : step? ⟨[.array items], e⟩ (.string (some s)) =
      some ⟨[.array (.string (some s) :: items)], .separator⟩ := by
    rcases he with rfl | rfl <;> rfl
  induction names using Token.ofNames.induct generalizing items e with
  | case1 => exact absurd rfl hne
  | case2 s =>
    simp only [Token.ofNames, List.foldlM_cons, hstring, Option.bind_eq_bind, Option.bind_some]
    simp [step?, complete]
  | case3 s rest hrest ih =>
    have hcomma : step? ⟨[.array (.string (some s) :: items)], .separator⟩ .comma =
        some ⟨[.array (.string (some s) :: items)], .value⟩ := rfl
    rw [Token.ofNames_cons s hrest, List.foldlM_cons, hstring, Option.bind_eq_bind,
      Option.bind_some, List.foldlM_cons, hcomma, Option.bind_eq_bind, Option.bind_some,
      ih _ _ (.inl rfl) hrest fun _ => rfl]
    simp

theorem ofTokens?_ofNames (names : List String) :
    ofTokens? (.openArray :: Token.ofNames names) =
      some (.array (names.map fun s => .string (some s))) := by
  have hopen : step? ⟨[], .value⟩ .openArray = some ⟨[.array []], .valueOrClose⟩ := rfl
  rw [ofTokens?, List.foldlM_cons, hopen, Option.bind_eq_bind, Option.bind_some]
  cases names with
  | nil => rfl
  | cons s rest => rw [foldlM_ofNames _ _ _ (.inr rfl) (List.cons_ne_nil s rest)]; rfl

end Raw

end Json

theorem Tables.names?_namesText (names : List String) :
    Tables.names? (Tables.namesText names) = some names := by
  have htext : (Tables.namesText names).toList =
      '[' :: ((Json.renderItems (names.map .string)).toList ++ [']']) := by
    simp [Tables.namesText, Json.list, Json.render]
  have hscan : Json.Token.ofText? (Tables.namesText names).toList =
      some (.openArray :: Json.Token.ofNames names) := by
    rw [Json.Token.ofText?, htext]
    exact Json.Token.scan?_cons (by decide) rfl (Json.Token.scan?_renderItems names _ (by simp))
  have hread {read : Json.Raw → Option String} (hs : ∀ s, read (.string (some s)) = some s)
      (names : List String) :
      (names.map fun s => Json.Raw.string (some s)).mapM read = some names := by
    induction names with
    | nil => rfl
    | cons s rest ih => simp [ih, hs]
  simp only [Tables.names?, Json.Raw.ofText?, hscan, Option.bind_some, Json.Raw.ofTokens?_ofNames]
  exact hread (fun _ => rfl) names

end SemanticIndex
