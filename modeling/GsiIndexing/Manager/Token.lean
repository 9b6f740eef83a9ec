import GsiIndexing.Common.MetakvPieces

/-!
# Create command tokens (`manager/common/token.go`)

`PostCreateCommandToken` stores a token's JSON text with `MetakvBigValueSet` under
`CreateDDLCommandTokenPath` and an id, the definition id or the definition and request ids
joined by `-`; `FetchIndexDefnToCreateCommandTokensMap` lists the token paths with
`MetakvBigValueList`, parses each back into its two ids with
`GetDefnIdFromCreateCommandTokenPath`, fetches the token and groups the tokens by definition.

A token is modelled by its two ids and its JSON text: `json.Marshal` and `json.Unmarshal` are
outside the model, so the text stands for the token. Go's maps are `AList`s.
-/

namespace Manager

open Go Common

/-- The bytes of an ASCII string constant. -/
def ascii (s : String) : Bytes := s.toList.map fun c => c.toNat.toUInt8

def indexingMetaDir : Bytes := ascii "/indexing/"
def ddlMetakvDir : Bytes := indexingMetaDir ++ ascii "ddl/"
def commandMetakvDir : Bytes := ddlMetakvDir ++ ascii "commandToken/"
def createDDLCommandTokenTag : Bytes := ascii "create/"
def createDDLCommandTokenPath : Bytes := commandMetakvDir ++ createDDLCommandTokenTag

/-- The byte `-`. -/
def hyphen : UInt8 := 45

/-- The id of a create token, as `PostCreateCommandToken`, `DeleteCreateCommandToken` and
`FetchCreateCommandToken` each build it: `fmt.Sprintf("%v", defnId)` for request id `0`, and
`fmt.Sprintf("%v-%v", defnId, requestId)` otherwise. -/
def tokenId (defnId requestId : UInt64) : Bytes :=
  if requestId = 0 then itoa defnId.toNat else itoa defnId.toNat ++ hyphen :: itoa requestId.toNat

def tokenPath (defnId requestId : UInt64) : Bytes :=
  createDDLCommandTokenPath ++ tokenId defnId requestId

/-- A create token: its ids, and the text `json.Marshal` gives for it. -/
structure CreateCommandToken where
  defnId : UInt64
  requestId : UInt64
  text : Bytes
  deriving DecidableEq, Repr

/-- `PostCreateCommandToken`. -/
def postCreateCommandToken (t : CreateCommandToken) (s : Store) : Except MetakvError Store :=
  metakvBigValueSet (tokenPath t.defnId t.requestId) t.text s

/-- `DeleteCreateCommandToken`. -/
def deleteCreateCommandToken (defnId requestId : UInt64) (s : Store) : Except MetakvError Store :=
  metakvBigValueDel (tokenPath defnId requestId) s

/-- `FetchCreateCommandToken`: `none` for a token that does not exist. -/
def fetchCreateCommandToken (defnId requestId : UInt64) (s : Store) :
    Except MetakvError (Option Bytes) :=
  metakvBigValueGet (tokenPath defnId requestId) s

/-- The errors of the listing: `Invalid path <path>`, a `strconv.ParseUint` error, and those
of metakv's big values. -/
inductive TokenError where
  | invalidPath (path : Bytes)
  | numError (e : NumError)
  | metakv (e : MetakvError)
  deriving DecidableEq, Repr

/-- `path[:strings.Index(path, "/")]`, or the whole path without a `/`. -/
def cutAtSlash (path : Bytes) : Bytes :=
  match path.idxOf? slash with
  | some loc => path.take loc
  | none => path

/-- `strconv.ParseUint(s, 10, 64)` as the parser uses it. -/
def parseId (s : Bytes) : Except TokenError UInt64 :=
  match parseUint s with
  | (_, some e) => .error (.numError e)
  | (temp, none) => .ok temp.toUInt64

/-- `GetDefnIdFromCreateCommandTokenPath`: the definition id up to the first `-` (or to the
first `/` without one), and the request id after it, up to the first `/`. -/
def getDefnIdFromCreateCommandTokenPath (path : Bytes) : Except TokenError (UInt64 × UInt64) := do
  if path.length ≤ createDDLCommandTokenPath.length then throw (.invalidPath path)
  let path := path.drop createDDLCommandTokenPath.length
  let (defnId, path) ←
    if path.length ≠ 0 then
      let (defnIdStr, path) :=
        match path.idxOf? hyphen with
        | some loc => (path.take loc, if loc ≠ path.length - 1 then path.drop (loc + 1) else [])
        | none => (cutAtSlash path, [])
      let defnId ← parseId defnIdStr
      pure (defnId, path)
    else pure (0, path)
  let requestId ← if path.length ≠ 0 then parseId (cutAtSlash path) else pure 0
  return (defnId, requestId)

/-- A map of definition ids to their tokens, as Go's `map[IndexDefnId][]*CreateCommandToken`. -/
abbrev TokenMap := AList (fun _ : UInt64 => List Bytes)

/-- `result[defnID] = append(result[defnID], token)`. -/
def TokenMap.append (result : TokenMap) (defnId : UInt64) (token : Bytes) : TokenMap :=
  result.insert defnId ((result.lookup defnId).getD [] ++ [token])

/-- The loop of `FetchIndexDefnToCreateCommandTokensMap` over the listed paths. -/
def fetchLoop (s : Store) : List Bytes → TokenMap → Except TokenError TokenMap
  | [], result => .ok result
  | path :: paths, result => do
    let (defnID, requestID) ← getDefnIdFromCreateCommandTokenPath path
    let token ← (fetchCreateCommandToken defnID requestID s).mapError .metakv
    match token with
    | some token => fetchLoop s paths (result.append defnID token)
    | none => fetchLoop s paths result

/-- `FetchIndexDefnToCreateCommandTokensMap`; a nil map is the empty one. -/
def fetchIndexDefnToCreateCommandTokensMap (s : Store) : Except TokenError TokenMap := do
  let paths ← (metakvBigValueList createDDLCommandTokenPath s).mapError .metakv
  fetchLoop s paths ∅

/-! ## Reading an id back -/

theorem hyphen_not_mem_itoa (n : Nat) : hyphen ∉ itoa n := by
  intro h
  rw [itoa_natCast] at h
  have := mem_map_digitByte h
  simp [hyphen] at this

theorem slash_not_mem_tokenId (defnId requestId : UInt64) : slash ∉ tokenId defnId requestId := by
  unfold tokenId
  split
  · exact slash_not_mem_itoa _
  · simp only [List.mem_append, List.mem_cons, not_or]
    exact ⟨slash_not_mem_itoa _, by decide, slash_not_mem_itoa _⟩

theorem cutAtSlash_of_not_mem {path : Bytes} (h : slash ∉ path) : cutAtSlash path = path := by
  simp [cutAtSlash, List.idxOf?_eq_none_iff.2 h]

theorem parseId_itoa (n : UInt64) : parseId (itoa n.toNat) = .ok n := by
  simp [parseId, parseUint_itoa n.toNat_lt]

theorem tokenId_ne_nil (defnId requestId : UInt64) : tokenId defnId requestId ≠ [] := by
  have := length_itoa_natCast_pos defnId.toNat
  unfold tokenId
  split <;> simp_all [← List.length_pos_iff]

/-- **The parser reads back the ids of every token path.** -/
theorem getDefnIdFromCreateCommandTokenPath_tokenPath (defnId requestId : UInt64) :
    getDefnIdFromCreateCommandTokenPath (tokenPath defnId requestId) = .ok (defnId, requestId) := by
  have hlen : ¬ (tokenPath defnId requestId).length ≤ createDDLCommandTokenPath.length := by
    have := List.length_pos_iff.2 (tokenId_ne_nil defnId requestId)
    simp only [tokenPath, List.length_append]
    omega
  have hdrop : (tokenPath defnId requestId).drop createDDLCommandTokenPath.length =
      tokenId defnId requestId := by simp [tokenPath]
  have hne : (tokenId defnId requestId).length ≠ 0 :=
    fun h => tokenId_ne_nil defnId requestId (List.eq_nil_of_length_eq_zero h)
  simp only [getDefnIdFromCreateCommandTokenPath, if_neg hlen, hdrop, ne_eq, hne, not_false_eq_true,
    if_true, bind, Except.bind, pure, Except.pure]
  by_cases hr : requestId = 0
  · -- `defnId` alone: no `-`, no `/`, and nothing after it
    subst hr
    have htok : tokenId defnId 0 = itoa defnId.toNat := by simp [tokenId]
    have hnone : (itoa defnId.toNat).idxOf? hyphen = none :=
      List.idxOf?_eq_none_iff.2 (hyphen_not_mem_itoa _)
    simp [htok, hnone, cutAtSlash_of_not_mem (slash_not_mem_itoa _), parseId_itoa]
  · -- `defnId-requestId`: the `-` splits the two texts, taken apart from how they are printed
    have htok : tokenId defnId requestId = itoa defnId.toNat ++ hyphen :: itoa requestId.toNat := by
      simp only [tokenId, if_neg hr]
    have hA := parseId_itoa defnId
    have hB := parseId_itoa requestId
    have hAh := hyphen_not_mem_itoa defnId.toNat
    have hBs := slash_not_mem_itoa requestId.toNat
    have hBpos := length_itoa_natCast_pos requestId.toNat
    rw [htok]
    generalize itoa defnId.toNat = A at hA hAh ⊢
    generalize itoa requestId.toNat = B at hB hBs hBpos ⊢
    have hsome : (A ++ hyphen :: B).idxOf? hyphen = some A.length := idxOf?_append_cons hAh
    have hloc : A.length ≠ (A ++ hyphen :: B).length - 1 := by
      simp only [List.length_append, List.length_cons]
      omega
    have hrest : (A ++ hyphen :: B).drop (A.length + 1) = B := by
      rw [List.drop_append, List.drop_eq_nil_of_le (by omega), Nat.add_sub_cancel_left]
      rfl
    have htake : (A ++ hyphen :: B).take A.length = A := List.take_left
    have hBne : B.length ≠ 0 := by omega
    simp only [hsome, htake, hA, hloc, hrest, hBne, not_false_eq_true, if_true,
      cutAtSlash_of_not_mem hBs, hB]

theorem tokenPath_inj {d r d' r' : UInt64} (h : tokenPath d r = tokenPath d' r') : d = d' ∧ r = r' := by
  have := getDefnIdFromCreateCommandTokenPath_tokenPath d r
  rw [h, getDefnIdFromCreateCommandTokenPath_tokenPath] at this
  simpa [eq_comm] using this

/-! ## Paths of the pieces -/

theorem piecePath_eq_iff {p p' : Bytes} {i j : Nat} :
    piecePath p i = piecePath p' j ↔ p = p' ∧ i = j := by
  constructor
  · intro h
    -- the last `/` of a piece's key ends its path
    have hlen : p.length = p'.length := by
      have := lastIndexOf_piecePath p i
      rw [h, lastIndexOf_piecePath] at this
      exact (Option.some.inj this).symm
    have hp : p = p' := by
      have := congrArg (List.take p.length) h
      simp only [piecePath] at this
      rwa [List.take_left, hlen, List.take_left] at this
    subst hp
    exact ⟨rfl, piecePath_inj h⟩
  · rintro ⟨rfl, rfl⟩
    rfl

/-- Two paths without `c`, each followed by `c`, where one is a prefix of the other's key. -/
theorem eq_of_prefix_sep {a b r : Bytes} {c : UInt8} (ha : c ∉ a) (hb : c ∉ b)
    (h : a ++ [c] <+: b ++ c :: r) : a = b := by
  induction a generalizing b with
  | nil =>
    cases b with
    | nil => rfl
    | cons y b =>
      obtain ⟨t, ht⟩ := h
      simp only [List.nil_append, List.cons_append, List.cons.injEq] at ht
      exact absurd (ht.1 ▸ List.mem_cons_self) hb
  | cons x a ih =>
    cases b with
    | nil =>
      obtain ⟨t, ht⟩ := h
      simp only [List.cons_append, List.nil_append, List.cons.injEq] at ht
      exact absurd (ht.1 ▸ List.mem_cons_self) ha
    | cons y b =>
      have hxy : x = y := by
        obtain ⟨t, ht⟩ := h
        simp only [List.cons_append, List.cons.injEq] at ht
        exact ht.1
      subst hxy
      have h' : a ++ [c] <+: b ++ c :: r := by
        simpa only [List.cons_append, List.cons_prefix_cons, true_and] using h
      rw [ih (fun hc => ha (List.mem_cons_of_mem _ hc)) (fun hc => hb (List.mem_cons_of_mem _ hc)) h']

/-- A piece's key lies under a token's directory only when it is a piece of that token. -/
theorem tokenId_eq_of_isPrefixOf {d r d' r' : UInt64} {i : Nat}
    (h : (tokenPath d r ++ [slash]).isPrefixOf (piecePath (tokenPath d' r') i) = true) :
    tokenId d r = tokenId d' r' := by
  rw [List.isPrefixOf_iff_prefix] at h
  simp only [tokenPath, piecePath, List.append_assoc] at h
  exact eq_of_prefix_sep (slash_not_mem_tokenId d r) (slash_not_mem_tokenId d' r')
    ((List.prefix_append_right_inj _).1 h)

theorem createDDLCommandTokenPath_isPrefixOf_piecePath (d r : UInt64) (i : Nat) :
    createDDLCommandTokenPath.isPrefixOf (piecePath (tokenPath d r) i) = true := by
  rw [List.isPrefixOf_iff_prefix]
  exact ⟨tokenId d r ++ slash :: itoa i, by simp [piecePath, tokenPath]⟩

theorem tokenPath_ne_nil (d r : UInt64) : tokenPath d r ≠ [] := by
  simp [tokenPath, tokenId_ne_nil]

theorem getLast?_tokenPath (d r : UInt64) : (tokenPath d r).getLast? ≠ some slash := by
  intro h
  rw [tokenPath, List.getLast?_append_of_ne_nil _ (tokenId_ne_nil d r)] at h
  exact slash_not_mem_tokenId d r (List.mem_of_getLast? h)

/-! ## The store after the posts -/

namespace CreateCommandToken

def path (t : CreateCommandToken) : Bytes := tokenPath t.defnId t.requestId

def ids (t : CreateCommandToken) : UInt64 × UInt64 := (t.defnId, t.requestId)

theorem ids_eq_of_path_eq {t t' : CreateCommandToken} (h : t.path = t'.path) : t.ids = t'.ids := by
  obtain ⟨hd, hr⟩ := tokenPath_inj h
  simp [ids, hd, hr]

end CreateCommandToken

open CreateCommandToken

/-- `PostCreateCommandToken` for each token in turn. -/
def postAll : List CreateCommandToken → Store → Except MetakvError Store
  | [], s => .ok s
  | t :: toks, s => do postAll toks (← postCreateCommandToken t s)

theorem postCreateCommandToken_eq (t : CreateCommandToken) (s : Store) :
    postCreateCommandToken t s = .ok (setLoop t.path 0 t.text s) :=
  metakvBigValueSet_eq (tokenPath_ne_nil _ _) (getLast?_tokenPath _ _) _ _

/-- Key `k` holds piece `i` of the text of one of `toks`. -/
def TokenPiece (toks : List CreateCommandToken) (k v : Bytes) : Prop :=
  ∃ t ∈ toks, ∃ i < pieceCount t.text, k = piecePath t.path i ∧ v = piece t.text i

/-- Under `CreateDDLCommandTokenPath` the store holds the pieces of the tokens `toks`, and
nothing else. -/
def HoldsTokens (s : Store) (toks : List CreateCommandToken) : Prop :=
  ∀ k v, createDDLCommandTokenPath.isPrefixOf k = true → (s.lookup k = some v ↔ TokenPiece toks k v)

theorem holdsTokens_nil {s : Store} (h : ∀ k ∈ s, createDDLCommandTokenPath.isPrefixOf k = false) :
    HoldsTokens s [] := by
  intro k v hk
  simp only [TokenPiece, List.not_mem_nil, false_and, exists_false, iff_false]
  intro hl
  have := h k (AList.lookup_isSome.mp (by rw [hl]; rfl))
  simp_all

/-- **Posting a token with fresh ids keeps the invariant**: its pieces join those of the
others, which it does not touch. -/
theorem HoldsTokens.post {s : Store} {toks : List CreateCommandToken} {t : CreateCommandToken}
    (h : HoldsTokens s toks) (hfresh : ∀ t' ∈ toks, t'.ids ≠ t.ids) :
    HoldsTokens (setLoop t.path 0 t.text s) (toks ++ [t]) := by
  intro k v hk
  -- no other token has a piece under the new token's path
  have hother : ∀ j, ¬ TokenPiece toks (piecePath t.path j) v := by
    rintro j ⟨t', ht', i, -, he, -⟩
    exact hfresh t' ht' (ids_eq_of_path_eq (piecePath_eq_iff.1 he).1.symm)
  have happ : TokenPiece (toks ++ [t]) k v ↔ TokenPiece toks k v ∨
      ∃ i < pieceCount t.text, k = piecePath t.path i ∧ v = piece t.text i := by
    simp only [TokenPiece, List.mem_append, List.mem_singleton, or_and_right, exists_or,
      exists_eq_left]
  rw [happ]
  by_cases hpiece : ∃ j, k = piecePath t.path j
  · obtain ⟨j, rfl⟩ := hpiece
    have hown : (∃ i < pieceCount t.text, piecePath t.path j = piecePath t.path i ∧
        v = piece t.text i) ↔ j < pieceCount t.text ∧ v = piece t.text j := by
      constructor
      · rintro ⟨i, hi, he, rfl⟩
        obtain rfl := piecePath_inj he
        exact ⟨hi, rfl⟩
      · rintro ⟨hj, rfl⟩
        exact ⟨j, hj, rfl, rfl⟩
    rw [lookup_setLoop_zero, hown]
    split_ifs with hj
    · simp [hj, hother j, eq_comm]
    · rw [h _ _ hk]
      simp [hj, hother j]
  · -- a key that is no piece of the new token keeps its value
    push Not at hpiece
    rw [lookup_setLoop_of_ne t.path t.text 0 s k (fun j _ => hpiece j), h _ _ hk]
    have hnot : ¬ ∃ i < pieceCount t.text, k = piecePath t.path i ∧ v = piece t.text i :=
      fun ⟨i, _, he, _⟩ => hpiece i he
    simp [hnot]

/-- **Posting tokens with ids apart keeps the invariant**, and every post succeeds. -/
theorem HoldsTokens.postAll {s : Store} {done : List CreateCommandToken} (h : HoldsTokens s done)
    (toks : List CreateCommandToken) (hids : ((done ++ toks).map ids).Nodup) :
    ∃ s', postAll toks s = .ok s' ∧ HoldsTokens s' (done ++ toks) := by
  induction toks generalizing s done with
  | nil => exact ⟨s, rfl, by simpa using h⟩
  | cons t toks ih =>
    have hfresh : ∀ t' ∈ done, t'.ids ≠ t.ids := by
      rw [List.map_append, List.nodup_append] at hids
      exact fun t' ht' => hids.2.2 _ (List.mem_map_of_mem ht') _ (List.mem_map_of_mem List.mem_cons_self)
    obtain ⟨s', hrun, hs'⟩ := ih (h.post hfresh) (by simpa using hids)
    refine ⟨s', ?_, by simpa using hs'⟩
    simp only [Manager.postAll, postCreateCommandToken_eq, bind, Except.bind]
    exact hrun

theorem length_lt_path (t : CreateCommandToken) : createDDLCommandTokenPath.length < t.path.length := by
  have := List.length_pos_iff.2 (tokenId_ne_nil t.defnId t.requestId)
  simp only [path, tokenPath, List.length_append]
  omega

theorem pieceCount_pos {buf : Bytes} (h : buf ≠ []) : 0 < pieceCount buf :=
  Nat.pos_of_ne_zero fun h0 => h (eq_nil_of_pieceCount_eq_zero h0)

theorem pieceCount_le_length (buf : Bytes) : pieceCount buf ≤ buf.length := by
  simp only [pieceCount, metakvSizeLimit]
  omega

section Posted

variable {s : Store} {toks : List CreateCommandToken} (h : HoldsTokens s toks)
include h

theorem HoldsTokens.lookup_piece {t : CreateCommandToken} (ht : t ∈ toks) {i : Nat}
    (hi : i < pieceCount t.text) : s.lookup (piecePath t.path i) = some (piece t.text i) :=
  (h _ _ (createDDLCommandTokenPath_isPrefixOf_piecePath _ _ i)).2 ⟨t, ht, i, hi, rfl, rfl⟩

/-- With the ids apart, the children of a token's directory are its pieces. -/
theorem HoldsTokens.holdsPieces (hids : (toks.map ids).Nodup) {t : CreateCommandToken}
    (ht : t ∈ toks) : HoldsPieces s t.path (pieceCount t.text) := by
  intro k hk
  have hpre : createDDLCommandTokenPath.isPrefixOf k = true := by
    rw [List.isPrefixOf_iff_prefix] at hk ⊢
    exact List.IsPrefix.trans ⟨tokenId t.defnId t.requestId ++ [slash], by simp [path, tokenPath]⟩ hk
  rw [← AList.lookup_isSome, Option.isSome_iff_exists]
  constructor
  · rintro ⟨v, hv⟩
    obtain ⟨t', ht', i, hi, rfl, -⟩ := (h _ _ hpre).1 hv
    -- the key lies under `t`'s directory, so `t'` is `t`
    have hid := tokenId_eq_of_isPrefixOf hk
    have hsame : t.ids = t'.ids := ids_eq_of_path_eq (by simp [path, tokenPath, hid])
    obtain rfl := List.inj_on_of_nodup_map hids ht ht' hsame
    exact ⟨i, hi, rfl⟩
  · rintro ⟨i, hi, rfl⟩
    exact ⟨_, h.lookup_piece ht hi⟩

/-- `FetchCreateCommandToken` reads a posted token back. -/
theorem HoldsTokens.fetch (hids : (toks.map ids).Nodup) {t : CreateCommandToken} (ht : t ∈ toks)
    (htext : t.text ≠ []) (hlen : t.text.length < 2 ^ 63) :
    fetchCreateCommandToken t.defnId t.requestId s = .ok (some t.text) := by
  have hbound : pieceCount t.text < 2 ^ 63 := lt_of_le_of_lt (pieceCount_le_length _) hlen
  -- the pieces, joined in order, are the text
  have hjoin : ((List.range (pieceCount t.text)).flatMap fun i =>
      (s.lookup (piecePath t.path i)).getD []) = t.text := by
    rw [List.flatMap_congr fun i hi => by
      rw [h.lookup_piece ht (List.mem_range.1 hi), Option.getD_some]]
    exact flatMap_range_piece_of_le le_rfl
  rw [fetchCreateCommandToken, metakvBigValueGet_of_holdsPieces (tokenPath_ne_nil _ _)
    (getLast?_tokenPath _ _) (pieceCount_pos htext) hbound (h.holdsPieces hids ht)]
  exact congrArg (fun b => Except.ok (some b)) hjoin

/-- `MetakvBigValueList` lists the paths of the posted tokens, each once. -/
theorem HoldsTokens.listedPaths (htexts : ∀ t ∈ toks, t.text ≠ []) :
    ∃ paths, metakvBigValueList createDDLCommandTokenPath s = .ok paths ∧ paths.Nodup ∧
      ∀ p, p ∈ paths ↔ ∃ t ∈ toks, t.path = p := by
  obtain ⟨paths, hlist, hnd, hmem⟩ :=
    metakvBigValueList_spec (show createDDLCommandTokenPath ≠ [] by decide) s
  have hws : withSlash createDDLCommandTokenPath = createDDLCommandTokenPath := by decide
  refine ⟨paths, hlist, hnd, fun p => ?_⟩
  rw [hmem, hws]
  constructor
  · rintro ⟨k, v, hpre, hl, hp⟩
    obtain ⟨t, ht, i, -, rfl, -⟩ := (h _ _ hpre).1 hl
    rw [listedPath_piecePath i (length_lt_path t)] at hp
    exact ⟨t, ht, Option.some.inj hp⟩
  · rintro ⟨t, ht, rfl⟩
    exact ⟨piecePath t.path 0, piece t.text 0, createDDLCommandTokenPath_isPrefixOf_piecePath _ _ 0,
      h.lookup_piece ht (pieceCount_pos (htexts t ht)), listedPath_piecePath 0 (length_lt_path t)⟩

end Posted

/-! ## The listing -/

/-- The loop over the paths of tokens it can fetch: each token's text appended under its
definition. -/
theorem fetchLoop_map_path {s : Store} {L : List CreateCommandToken}
    (hfetch : ∀ t ∈ L, fetchCreateCommandToken t.defnId t.requestId s = .ok (some t.text))
    (r : TokenMap) :
    fetchLoop s (L.map path) r = .ok (L.foldl (fun m t => m.append t.defnId t.text) r) := by
  induction L generalizing r with
  | nil => rfl
  | cons t L ih =>
    simp only [List.map_cons, fetchLoop, path, getDefnIdFromCreateCommandTokenPath_tokenPath,
      hfetch t List.mem_cons_self, Except.mapError, bind, Except.bind, List.foldl_cons]
    exact ih (fun t' ht' => hfetch t' (List.mem_cons_of_mem _ ht')) _

/-- What the appends leave under a definition: the texts of its tokens, in order, after those
before. -/
theorem lookup_foldl_append (L : List CreateCommandToken) (r : TokenMap) (d : UInt64) :
    (L.foldl (fun m t => m.append t.defnId t.text) r).lookup d =
      if L.filter (fun t => t.defnId = d) = [] then r.lookup d
      else some ((r.lookup d).getD [] ++ (L.filter (fun t => t.defnId = d)).map (·.text)) := by
  induction L generalizing r with
  | nil => simp
  | cons t L ih =>
    rw [List.foldl_cons, ih]
    by_cases hd : t.defnId = d
    · -- the token's definition: its text goes after the others'
      subst hd
      simp only [TokenMap.append, AList.lookup_insert, Option.getD_some, List.filter_cons,
        decide_true, if_true, reduceCtorEq, if_false, List.map_cons, List.append_assoc,
        List.singleton_append]
      split_ifs <;> simp_all
    · have hins : (r.append t.defnId t.text).lookup d = r.lookup d :=
        AList.lookup_insert_ne (Ne.symm hd)
      simp only [List.filter_cons, hd, decide_false, Bool.false_eq_true, if_false, hins]

theorem getD_lookup_foldl_append (L : List CreateCommandToken) (d : UInt64) :
    ((L.foldl (fun m t => m.append t.defnId t.text) (∅ : TokenMap)).lookup d).getD [] =
      (L.filter (fun t => t.defnId = d)).map (·.text) := by
  rw [lookup_foldl_append]
  split_ifs with hf
  · simp [hf]
  · simp

/-- **Listing the create tokens finds each posted token once, under its definition**, and the
parser reads the ids of every token path back. From a store with nothing under
`CreateDDLCommandTokenPath`, after posting tokens whose ids are pairwise apart (their texts,
as `json.Marshal` makes them, are not empty, and no Go slice reaches `2^63` bytes), the map has
the definitions of the tokens as its keys, and under each the texts of its tokens, once each,
in some order. -/
theorem fetchIndexDefnToCreateCommandTokensMap_postAll (s : Store)
    (toks : List CreateCommandToken)
    (hempty : ∀ k ∈ s, createDDLCommandTokenPath.isPrefixOf k = false)
    (hids : (toks.map fun t => (t.defnId, t.requestId)).Nodup)
    (htexts : ∀ t ∈ toks, t.text ≠ [] ∧ t.text.length < 2 ^ 63) :
    (∀ defnId requestId,
        getDefnIdFromCreateCommandTokenPath (createDDLCommandTokenPath ++ tokenId defnId requestId) =
          .ok (defnId, requestId)) ∧
      ∃ s', postAll toks s = .ok s' ∧ ∃ m, fetchIndexDefnToCreateCommandTokensMap s' = .ok m ∧
        (∀ d, d ∈ m ↔ ∃ t ∈ toks, t.defnId = d) ∧
        ∀ d, ((m.lookup d).getD []).Perm ((toks.filter fun t => t.defnId = d).map (·.text)) := by
  refine ⟨getDefnIdFromCreateCommandTokenPath_tokenPath, ?_⟩
  have hids' : (toks.map ids).Nodup := hids
  obtain ⟨s', hpost, hs'⟩ := (holdsTokens_nil hempty).postAll toks (by simpa using hids')
  rw [List.nil_append] at hs'
  obtain ⟨paths, hlist, hnd, hmem⟩ := hs'.listedPaths fun t ht => (htexts t ht).1
  -- the paths are those of the tokens, in some order
  have hpaths : (toks.map path).Nodup :=
    List.Nodup.map_on (fun t ht t' ht' he => List.inj_on_of_nodup_map hids' ht ht'
      (ids_eq_of_path_eq he)) (hids'.of_map ids)
  have hperm : paths.Perm (toks.map path) :=
    (List.perm_ext_iff_of_nodup hnd hpaths).2 fun p => by rw [hmem]; simp
  obtain ⟨L, rfl, hL⟩ : Relation.Comp (· = List.map path ·) List.Perm paths toks := by
    rw [List.eq_map_comp_perm]
    exact hperm
  have hfetch : ∀ t ∈ L, fetchCreateCommandToken t.defnId t.requestId s' = .ok (some t.text) :=
    fun t ht => hs'.fetch hids' (hL.subset ht) (htexts t (hL.subset ht)).1 (htexts t (hL.subset ht)).2
  refine ⟨s', hpost, L.foldl (fun m t => m.append t.defnId t.text) ∅, ?_, fun d => ?_, fun d => ?_⟩
  · simp only [fetchIndexDefnToCreateCommandTokensMap, hlist, Except.mapError, bind, Except.bind]
    exact fetchLoop_map_path hfetch ∅
  · rw [← AList.lookup_isSome, lookup_foldl_append]
    split_ifs with hf
    · simp only [AList.lookup_empty, Option.isSome_none, Bool.false_eq_true, false_iff]
      rintro ⟨t, ht, rfl⟩
      exact List.filter_eq_nil_iff.1 hf t (hL.mem_iff.2 ht) (by simp)
    · simp only [Option.isSome_some, true_iff]
      obtain ⟨t, ht⟩ := List.exists_mem_of_ne_nil _ hf
      obtain ⟨htL, htd⟩ := List.mem_filter.1 ht
      exact ⟨t, hL.subset htL, by simpa using htd⟩
  · rw [getD_lookup_foldl_append]
    exact (hL.filter _).map _

/-- Two tokens of definition `1`: one without a request id, one with request id `2`. -/
def twoTokens : List CreateCommandToken := [⟨1, 0, [123, 125]⟩, ⟨1, 2, [91, 93]⟩]

theorem fetchIndexDefnToCreateCommandTokensMap_postAll_two :
    (∀ defnId requestId,
        getDefnIdFromCreateCommandTokenPath (createDDLCommandTokenPath ++ tokenId defnId requestId) =
          .ok (defnId, requestId)) ∧
      ∃ s', postAll twoTokens ∅ = .ok s' ∧ ∃ m, fetchIndexDefnToCreateCommandTokensMap s' = .ok m ∧
        (∀ d, d ∈ m ↔ ∃ t ∈ twoTokens, t.defnId = d) ∧
        ∀ d, ((m.lookup d).getD []).Perm ((twoTokens.filter fun t => t.defnId = d).map (·.text)) :=
  fetchIndexDefnToCreateCommandTokensMap_postAll ∅ twoTokens
    (fun k hk => absurd hk (AList.notMem_empty k)) (by decide) (by decide)

end Manager
