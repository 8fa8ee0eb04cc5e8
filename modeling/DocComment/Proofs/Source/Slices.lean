import DocComment.Proofs.Source.Agreement

/-!
# The slices that the scan takes

To find the end of a comment the scan looks at slices of the source, and a slice
can only be taken between two characters.  The position of the scan may lie in the
middle of a character, but never at a slash, a star or a quote: the bytes of these
occur nowhere else.  So every slice can be taken, and since the position grows with
every round the scan comes to its end.

Main results:

- Definition `Source.slice?`: the text between two positions, if it is a text.
- Theorem `Source.slice?_eq_some_iff`: a slice can be taken between two characters
  and nowhere else.
- Theorem `Source.round?_eq`: one round of the scan, with its slices taken from the
  source, comes to the end of the region.
- Theorem `Source.scan?_eq`: so do all rounds, one after the other.
- Theorem `Source.scan_never_fails`: the scan advances within the source, takes
  only slices that can be taken, and ends.
-/

namespace DocComment
namespace Source

/-! ## Slices -/

/-- The number of bytes of a text. -/
def byteSize (text : Text) : Nat :=
  (Text.encodeUtf8 text).size

@[simp]
theorem byteSize_nil : byteSize [] = 0 :=
  rfl

@[simp]
theorem byteSize_append (text rest : Text) :
    byteSize (text ++ rest) = byteSize text + byteSize rest := by
  rw [byteSize, encodeUtf8_append, ByteArray.size_append]
  rfl

@[simp]
theorem byteSize_cons (c : Char) (rest : Text) :
    byteSize (c :: rest) = c.utf8Size + byteSize rest := by
  rw [byteSize, encodeUtf8_cons, ByteArray.size_append]
  simp [byteSize]

/-- Cut a text after a number of bytes, if that is between two characters. -/
def cutBytes? : Nat → Text → Option (Text × Text)
  | 0, text => some ([], text)
  | _ + 1, [] => none
  | n + 1, c :: rest =>
    if c.utf8Size ≤ n + 1 then
      (cutBytes? (n + 1 - c.utf8Size) rest).map fun cut => (c :: cut.1, cut.2)
    else none

/-- The text of a source from one byte position to another.  There is none unless
the positions come in this order, lie in the source and are between two
characters. -/
def slice? (source : Text) (start stop : Nat) : Option Text :=
  if start ≤ stop then do
    let cut ← cutBytes? start source
    let cut' ← cutBytes? (stop - start) cut.2
    return cut'.1
  else none

/-- A text can be cut at a number of bytes when a part of it has this size. -/
theorem cutBytes?_eq_some_iff {n : Nat} {text front rest : Text} :
    cutBytes? n text = some (front, rest) ↔ text = front ++ rest ∧ byteSize front = n := by
  fun_induction cutBytes? n text generalizing front with
  | case1 text =>
      cases front with
      | nil => simp [eq_comm]
      | cons c front =>
          have := c.utf8Size_pos
          simp
          omega
  | case2 n =>
      constructor
      · intro h
        simp at h
      · rintro ⟨hnil, hsize⟩
        cases front with
        | nil => simp at hsize
        | cons c front => simp at hnil
  | case3 n c tail hle ih =>
      cases front with
      | nil => simp
      | cons d front =>
          simp only [Option.map_eq_some_iff, Prod.exists, Prod.mk.injEq, List.cons.injEq,
            List.cons_append, byteSize_cons]
          constructor
          · rintro ⟨front', _, hcut, ⟨rfl, rfl⟩, rfl⟩
            rcases ih.mp hcut with ⟨happend, hsize⟩
            exact ⟨⟨rfl, happend⟩, by omega⟩
          · rintro ⟨⟨rfl, happend⟩, hsize⟩
            exact ⟨front, rest, ih.mpr ⟨happend, by omega⟩, ⟨rfl, rfl⟩, rfl⟩
  | case4 n c tail hlt =>
      constructor
      · intro h
        simp at h
      · rintro ⟨happend, hsize⟩
        cases front with
        | nil => simp at hsize
        | cons d front =>
            simp only [List.cons_append, List.cons.injEq, byteSize_cons] at happend hsize
            rcases happend with ⟨rfl, _⟩
            omega

/-- The positions of a slice are those before and after its text. -/
theorem slice?_eq_some_iff {source text : Text} {start stop : Nat} :
    slice? source start stop = some text ↔
      ∃ front rest, source = front ++ text ++ rest ∧ byteSize front = start ∧
        byteSize (front ++ text) = stop := by
  unfold slice?
  split
  · simp only [Option.bind_eq_bind, Option.bind_eq_some_iff, Option.pure_def, Option.some.injEq,
      cutBytes?_eq_some_iff, Prod.exists, byteSize_append]
    constructor
    · rintro ⟨front, _, ⟨rfl, hstart⟩, _, rest, ⟨rfl, hstop⟩, rfl⟩
      exact ⟨front, rest, by simp, hstart, by omega⟩
    · rintro ⟨front, rest, rfl, hstart, hstop⟩
      exact ⟨front, text ++ rest, ⟨by simp, hstart⟩, text, rest, ⟨rfl, by omega⟩, rfl⟩
  · rename_i hlt
    constructor
    · intro h
      simp at h
    · rintro ⟨front, rest, _, hstart, hstop⟩
      rw [byteSize_append] at hstop
      omega

/-! ## The rest of a source -/

variable {source text rest : Text} {i : Nat} {c d : Char}

/-- The rest of a source after a position between two characters. -/
def RestAt (source : Text) (i : Nat) (rest : Text) : Prop :=
  ∃ front, source = front ++ rest ∧ byteSize front = i

theorem restAt_zero (source : Text) : RestAt source 0 source :=
  ⟨[], rfl, rfl⟩

/-- The rest at a position is the text that is encoded from there on. -/
theorem RestAt.textAt (h : RestAt source i rest) : TextAt (Text.encodeUtf8 source) i rest := by
  rcases h with ⟨front, rfl, rfl⟩
  exact ⟨Text.encodeUtf8 front, rfl, encodeUtf8_append front rest⟩

/-- The position after a part of the rest is further on by the size of the part. -/
theorem RestAt.append (text : Text) (h : RestAt source i (text ++ rest)) :
    RestAt source (i + byteSize text) rest := by
  rcases h with ⟨front, rfl, rfl⟩
  exact ⟨front ++ text, by simp, by simp⟩

/-- What starts the rest of a source is a slice. -/
theorem RestAt.slice?_eq (h : RestAt source i (text ++ rest)) :
    slice? source i (i + byteSize text) = some text := by
  rcases h with ⟨front, rfl, rfl⟩
  exact slice?_eq_some_iff.mpr ⟨front, rest, by simp, rfl, by simp⟩

/-- A slice is the text of its span. -/
theorem text?_of_slice? {j : Nat} (h : slice? source i j = some text) :
    Span.text? (Text.encodeUtf8 source) ⟨i, j⟩ = some text := by
  rcases slice?_eq_some_iff.mp h with ⟨front, rest, rfl, rfl, rfl⟩
  have hstart : RestAt (front ++ text ++ rest) (byteSize front) (text ++ rest) :=
    ⟨front, by simp, rfl⟩
  have hstop : RestAt (front ++ text ++ rest) (byteSize (front ++ text)) rest :=
    ⟨front ++ text, rfl, rfl⟩
  exact hstart.textAt.text?_eq hstop.textAt

/-- The whole rest of a source is a slice. -/
theorem RestAt.slice?_end (h : RestAt source i rest) :
    slice? source i (Text.encodeUtf8 source).size = some rest := by
  rcases h with ⟨front, rfl, rfl⟩
  exact slice?_eq_some_iff.mpr ⟨front, [], by simp, rfl, rfl⟩

/-- A position between two characters of a source, or at one of its ends. -/
def Boundary (source : Text) (i : Nat) : Prop :=
  ∃ rest, RestAt source i rest

/-- A slice of a source can be taken: its positions come in this order, lie in the
source and are between two characters. -/
structure Sliceable (source : Text) (start stop : Nat) : Prop where
  le : start ≤ stop
  le_size : stop ≤ (Text.encodeUtf8 source).size
  boundary_start : Boundary source start
  boundary_stop : Boundary source stop

/-- The slices are those that can be taken. -/
theorem isSome_slice?_iff {start stop : Nat} :
    (slice? source start stop).isSome = true ↔ Sliceable source start stop := by
  rw [Option.isSome_iff_exists]
  constructor
  · rintro ⟨text, htext⟩
    rcases slice?_eq_some_iff.mp htext with ⟨front, rest, rfl, rfl, rfl⟩
    refine ⟨by simp, ?_, ⟨text ++ rest, front, by simp, rfl⟩, ⟨rest, front ++ text, rfl, rfl⟩⟩
    rw [encodeUtf8_append, ByteArray.size_append]
    exact Nat.le_add_right _ _
  · rintro ⟨hle, _, ⟨rest, front, hfront, rfl⟩, rest', front', hfront', rfl⟩
    -- Of two parts at the start of the source the shorter one starts the longer one.
    have hprefix : front <+: front' := by
      rcases List.prefix_or_prefix_of_prefix ⟨rest, hfront.symm⟩ ⟨rest', hfront'.symm⟩ with
        hprefix | ⟨text, rfl⟩
      · exact hprefix
      · have hnil : text = [] := by
          rw [byteSize_append] at hle
          cases text with
          | nil => rfl
          | cons c text =>
              have := c.utf8Size_pos
              rw [byteSize_cons] at hle
              omega
        exact ⟨[], by simp [hnil]⟩
    rcases hprefix with ⟨text, rfl⟩
    exact ⟨text, slice?_eq_some_iff.mpr ⟨front, rest', hfront', rfl, rfl⟩⟩

/-- A position of a source is between two characters, or its byte is inert. -/
theorem RestAt.exists_or_inert {j : Nat} (h : RestAt source j text) (hj : j ≤ i)
    (hi : i < (Text.encodeUtf8 source).size) :
    (∃ c rest, RestAt source i (c :: rest)) ∨ Inert (Text.encodeUtf8 source) i := by
  induction text generalizing j with
  | nil =>
      have := h.textAt.eq_size
      omega
  | cons c rest ih =>
      by_cases heq : i = j
      · exact .inl ⟨c, rest, heq ▸ h⟩
      · by_cases hlt : i < j + c.utf8Size
        · -- The position lies inside of the character.
          obtain ⟨k, rfl⟩ : ∃ k, i = j + (k + 1) := ⟨i - j - 1, by omega⟩
          exact .inr (h.textAt.inert (by omega))
        · have hnext : RestAt source (j + c.utf8Size) rest := by
            simpa using RestAt.append [c] h
          exact ih hnext (by omega)

/-- A comment opener stands between two characters, wherever the scan is when it
finds one. -/
theorem exists_restAt_of_opener (hd : d.toNat < 0x80) (hi : i < (Text.encodeUtf8 source).size)
    (hopen : ((Text.encodeUtf8 source)[i] == slash &&
      (Text.encodeUtf8 source)[i + 1]? == some (byteOf d)) = true) :
    ∃ rest, RestAt source i ('/' :: d :: rest) := by
  rcases (restAt_zero source).exists_or_inert (Nat.zero_le i) hi with ⟨c, rest, h⟩ | hinert
  · rcases (h.textAt.opener_iff hd hi).mp hopen with ⟨rfl, hhead⟩
    rcases List.head?_eq_some_iff.mp hhead with ⟨rest, rfl⟩
    exact ⟨rest, h⟩
  · have hslash : (Text.encodeUtf8 source)[i] ≠ slash :=
      hinert.getElem_ne (d := '/') (by decide) hi
    rw [beq_false_of_ne hslash] at hopen
    simp at hopen

/-! ## Where regions end -/

/-- The text at a position fills the source. -/
theorem TextAt.add_byteSize {bytes : ByteArray} (h : TextAt bytes i text) :
    i + byteSize text = bytes.size := by
  rcases h with ⟨front, rfl, rfl⟩
  rw [ByteArray.size_append]
  rfl

/-- The scan for a closer ends after as many bytes as the text up to the closer
has. -/
theorem TextAt.closeFrom_eq {bytes : ByteArray} (h : TextAt bytes i text) :
    Source.closeFrom bytes i = i + byteSize (Token.cutClose text).1 := by
  have hstart := h.add_byteSize
  have hend := h.closeFrom.add_byteSize
  rw [← Token.cutClose_append text, byteSize_append] at hstart
  omega

/-- The scan for a line feed ends after as many bytes as the line has. -/
theorem TextAt.lineEnd_eq {bytes : ByteArray} (h : TextAt bytes i text) :
    Source.lineEnd bytes i = i + byteSize (Token.cutLine text).1 := by
  have hstart := h.add_byteSize
  have hend := h.lineEnd.add_byteSize
  rw [← Token.cutLine_append text, byteSize_append] at hstart
  omega

/-! ## Rounds of the scan -/

/-- One round of the scan, with the ends of comments searched in slices of the
source: the comment that starts at a position, if one does, and the position after
the region.  There is no result if a byte or a slice is asked for that cannot be
taken. -/
def round? (source : Text) (i : Nat) : Option (Option Text × Nat) := do
  let bytes := Text.encodeUtf8 source
  let byte ← bytes[i]?
  if byte == slash && bytes[i + 1]? == some star then
    let inner ← slice? source (i + 2) bytes.size
    let stop := i + 2 + byteSize (Token.cutClose inner).1
    let comment ← slice? source i stop
    return (some comment, stop)
  else if byte == slash && bytes[i + 1]? == some slash then
    let line ← slice? source i bytes.size
    return (none, i + byteSize (Token.cutLine line).1)
  else if isQuote byte then return (none, literalEnd bytes byte (i + 1))
  else return (none, i + 1)

/-- The comments that the scan finds from a position on, in at most the given
number of rounds. -/
def scan? (source : Text) : (rounds i : Nat) → Option (List Text)
  | 0, _ => none
  | rounds + 1, i =>
    if i < (Text.encodeUtf8 source).size then do
      let found ← round? source i
      let others ← scan? source rounds found.2
      return found.1.toList ++ others
    else some []

/-- The slices of a round at a block comment. -/
theorem RestAt.slices_block (h : RestAt source i ('/' :: '*' :: rest)) :
    slice? source (i + 2) (Text.encodeUtf8 source).size = some rest ∧
      slice? source i (i + 2 + byteSize (Token.cutClose rest).1) =
        some ('/' :: '*' :: (Token.cutClose rest).1) := by
  constructor
  · exact (RestAt.append ['/', '*'] h).slice?_end
  · have hcut := Token.cutClose_append rest
    have hrest : RestAt source i
        ('/' :: '*' :: (Token.cutClose rest).1 ++ (Token.cutClose rest).2) := by
      simpa [hcut] using h
    have hslice := hrest.slice?_eq
    have hsize : byteSize ('/' :: '*' :: (Token.cutClose rest).1) =
        2 + byteSize (Token.cutClose rest).1 := by
      rw [byteSize_cons, byteSize_cons, ← Nat.add_assoc]
      rfl
    rwa [hsize, ← Nat.add_assoc] at hslice

/-- A block region starts with an opener. -/
theorem exists_restAt_of_block (hi : i < (Text.encodeUtf8 source).size)
    (h : (regionAt (Text.encodeUtf8 source) i hi).1 = .block) :
    ∃ rest, RestAt source i ('/' :: '*' :: rest) := by
  rw [regionAt] at h
  split at h
  · rename_i hopen
    exact exists_restAt_of_opener (by decide) hi hopen
  · split at h
    · simp at h
    · split at h <;> simp at h

/-- A region that is a line comment starts with two slashes. -/
theorem exists_restAt_of_lineComment (hi : i < (Text.encodeUtf8 source).size)
    (h : (regionAt (Text.encodeUtf8 source) i hi).1 = .lineComment) :
    ∃ rest, RestAt source i ('/' :: '/' :: rest) := by
  rw [regionAt] at h
  split at h
  · simp at h
  · split at h
    · rename_i hopen
      exact exists_restAt_of_opener (by decide) hi hopen
    · split at h <;> simp at h

/-- A block comment ends after as many bytes as it has. -/
theorem RestAt.regionAt_eq (h : RestAt source i ('/' :: '*' :: rest))
    (hi : i < (Text.encodeUtf8 source).size) :
    regionAt (Text.encodeUtf8 source) i hi =
      (.block, i + 2 + byteSize (Token.cutClose rest).1) := by
  have hinner : TextAt (Text.encodeUtf8 source) (i + 2) rest :=
    (RestAt.append ['/', '*'] h).textAt
  rw [h.textAt.regionAt_eq hi, if_pos ⟨rfl, rfl⟩, hinner.closeFrom_eq]

/-- The comment that starts at a position, if one does. -/
def commentAt? (bytes : ByteArray) (i : Nat) (hi : i < bytes.size) : Option Text :=
  match (regionAt bytes i hi).1 with
  | .block => Span.text? bytes ⟨i, (regionAt bytes i hi).2⟩
  | _ => none

/-- One round comes to the end of the region: all that it asks for can be
taken. -/
theorem round?_eq (hi : i < (Text.encodeUtf8 source).size) :
    round? source i =
      some (commentAt? (Text.encodeUtf8 source) i hi,
        (regionAt (Text.encodeUtf8 source) i hi).2) := by
  rw [round?, getElem?_pos _ i hi]
  simp only [Option.bind_eq_bind, Option.bind_some, Option.pure_def]
  split
  · rename_i hopen
    rcases exists_restAt_of_opener (d := '*') (by decide) hi hopen with ⟨rest, h⟩
    rcases h.slices_block with ⟨hinner, hcomment⟩
    rw [commentAt?, h.regionAt_eq hi, hinner, Option.bind_some, hcomment, Option.bind_some]
    simp only [text?_of_slice? hcomment]
  · rename_i hblock
    rw [commentAt?, regionAt, if_neg hblock]
    split
    · rename_i hopen
      rcases exists_restAt_of_opener (d := '/') (by decide) hi hopen with ⟨rest, h⟩
      rw [h.slice?_end, Option.bind_some, h.textAt.lineEnd_eq]
    · split <;> rfl

/-! ## The whole scan -/

/-- The comments from a position on are the one there, if any, and those of the next
region on. -/
theorem filterMap_blockSpans (bytes : ByteArray) {i : Nat} (hi : i < bytes.size) :
    (blockSpans bytes i).filterMap (Span.text? bytes) =
      (commentAt? bytes i hi).toList ++
        (blockSpans bytes (regionAt bytes i hi).2).filterMap (Span.text? bytes) := by
  rw [blockSpans, dif_pos hi, commentAt?]
  cases hregion : (regionAt bytes i hi).1 with
  | block =>
      simp only [List.filterMap_cons]
      cases Span.text? bytes ⟨i, (regionAt bytes i hi).2⟩ <;> rfl
  | _ => rfl

/-- The rounds from a position on come to the end of the source: every round
advances, so there are no more of them than bytes. -/
theorem scan?_eq {rounds : Nat} (hi : i ≤ (Text.encodeUtf8 source).size)
    (hrounds : (Text.encodeUtf8 source).size < i + rounds) :
    scan? source rounds i =
      some ((blockSpans (Text.encodeUtf8 source) i).filterMap
        (Span.text? (Text.encodeUtf8 source))) := by
  induction rounds generalizing i with
  | zero => omega
  | succ rounds ih =>
      rw [scan?]
      by_cases hlt : i < (Text.encodeUtf8 source).size
      · have hadvance := lt_regionAt (Text.encodeUtf8 source) i hlt
        have hstop := regionAt_le (Text.encodeUtf8 source) i hlt
        rw [if_pos hlt, round?_eq hlt, filterMap_blockSpans _ hlt]
        simp only [Option.bind_eq_bind, Option.bind_some, Option.pure_def]
        rw [ih hstop (by omega), Option.bind_some]
      · rw [if_neg hlt, blockSpans, dif_neg hlt]
        rfl

/-- The scan of a source never fails and comes to an end.  Every round advances
and stays within the source, and takes only slices that can be taken: the rest
after a comment opener and the whole comment, or the rest from a line comment on.
A literal ends after its opening quote and within the source.  The scan is
complete after as many rounds as the source has bytes. -/
theorem scan_never_fails (source : Text) :
    (∀ i (hi : i < (Text.encodeUtf8 source).size),
      i < (regionAt (Text.encodeUtf8 source) i hi).2 ∧
        (regionAt (Text.encodeUtf8 source) i hi).2 ≤ (Text.encodeUtf8 source).size ∧
        ((regionAt (Text.encodeUtf8 source) i hi).1 = .block →
          Sliceable source (i + 2) (Text.encodeUtf8 source).size ∧
            Sliceable source i (regionAt (Text.encodeUtf8 source) i hi).2) ∧
        ((regionAt (Text.encodeUtf8 source) i hi).1 = .lineComment →
          Sliceable source i (Text.encodeUtf8 source).size)) ∧
      (∀ i quote, i < (Text.encodeUtf8 source).size →
        i < literalEnd (Text.encodeUtf8 source) quote (i + 1) ∧
          literalEnd (Text.encodeUtf8 source) quote (i + 1) ≤ (Text.encodeUtf8 source).size) ∧
      ∀ rounds, (Text.encodeUtf8 source).size < rounds →
        scan? source rounds 0 = some (blockComments source) := by
  refine ⟨?_, ?_, ?_⟩
  · intro i hi
    refine ⟨lt_regionAt _ i hi, regionAt_le _ i hi, ?_, ?_⟩
    · intro hblock
      rcases exists_restAt_of_block hi hblock with ⟨rest, h⟩
      rcases h.slices_block with ⟨hinner, hcomment⟩
      rw [h.regionAt_eq hi]
      exact ⟨isSome_slice?_iff.mp (by simp [hinner]), isSome_slice?_iff.mp (by simp [hcomment])⟩
    · intro hline
      rcases exists_restAt_of_lineComment hi hline with ⟨rest, h⟩
      exact isSome_slice?_iff.mp (by simp [h.slice?_end])
  · intro i quote hi
    exact ⟨le_literalEnd _ quote (i + 1) hi, literalEnd_le _ quote (i + 1)⟩
  · intro rounds hrounds
    exact scan?_eq (Nat.zero_le _) (by omega)

/-- A source in which a backslash stands before a character of two bytes, and
another one at the end. -/
def escapedSource : Text :=
  "'\\é'/*é*///é\n'\\".toList

theorem scan_never_fails_escapedSource :
    ∃ (hblock : 5 < (Text.encodeUtf8 escapedSource).size)
      (hline : 11 < (Text.encodeUtf8 escapedSource).size),
      (regionAt (Text.encodeUtf8 escapedSource) 5 hblock).1 = .block ∧
        Sliceable escapedSource 7 (Text.encodeUtf8 escapedSource).size ∧
        Sliceable escapedSource 5 (regionAt (Text.encodeUtf8 escapedSource) 5 hblock).2 ∧
        (regionAt (Text.encodeUtf8 escapedSource) 11 hline).1 = .lineComment ∧
        Sliceable escapedSource 11 (Text.encodeUtf8 escapedSource).size ∧
        16 < literalEnd (Text.encodeUtf8 escapedSource) 0x27 17 ∧
        literalEnd (Text.encodeUtf8 escapedSource) 0x27 17 ≤
          (Text.encodeUtf8 escapedSource).size ∧
        scan? escapedSource 19 0 = some (blockComments escapedSource) := by
  rcases scan_never_fails escapedSource with ⟨hround, hliteral, hscan⟩
  have hblock : 5 < (Text.encodeUtf8 escapedSource).size := by decide
  have hline : 11 < (Text.encodeUtf8 escapedSource).size := by decide
  have hregion : (regionAt (Text.encodeUtf8 escapedSource) 5 (by decide)).1 = .block := by
    decide
  have hregion' :
      (regionAt (Text.encodeUtf8 escapedSource) 11 (by decide)).1 = .lineComment := by decide
  rcases hround 5 hblock with ⟨_, _, hslices, _⟩
  rcases hround 11 hline with ⟨_, _, _, hslice⟩
  rcases hliteral 16 0x27 (by decide) with ⟨hlt, hle⟩
  exact ⟨hblock, hline, hregion, (hslices hregion).1, (hslices hregion).2, hregion',
    hslice hregion', hlt, hle, hscan 19 (by decide)⟩

end Source
end DocComment
