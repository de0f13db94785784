import Mathlib.Algebra.GroupWithZero.Nat
import Mathlib.Data.List.Basic

/-!
# Framed streams

A stream of bytes cut into frames by a decoder that reads one frame off the front and says
how many bytes it took.  `prefixFrames` reads frames as long as they decode and reports
where it stopped; `forFrames` runs a loop body over the frames of a stream that has to
decode to its end.  On the concatenation of encoded items both do what the plain list
functions do on the items.  For a decoder that reads what it reports (`Exact`), a stream
`Splits` into frames when decoding them one after another uses it up; `prefixFrames` finds the
longest prefix that does, and the frames of a stream that is `Whole` are followed by those of
whatever is appended to it.
-/

namespace Framing

variable {β α γ ρ ε : Type*}

/-- The frames at the front of a stream and the number of bytes they take. -/
def prefixFrames (decode : List β → Option (α × ℕ)) : ℕ → List β → List α × ℕ
  | 0, _ => ([], 0)
  | fuel + 1, bs =>
      match decode bs with
      | none => ([], 0)
      | some (a, n) =>
          let (as, e) := prefixFrames decode fuel (bs.drop n)
          (a :: as, n + e)

/-- Run `body` over the frames of a stream until the stream is empty, a frame does not
decode, or the body ends the loop. -/
def forFrames (decode : List β → Option (α × ℕ)) (bad : ε) (body : ρ → α → ForInStep ρ) :
    ℕ → List β → ρ → Except ε ρ
  | _, [], acc => .ok acc
  | 0, _ :: _, acc => .ok acc
  | fuel + 1, b :: bs, acc =>
      match decode (b :: bs) with
      | none => .error bad
      | some (a, n) =>
          match body acc a with
          | .done r => .ok r
          | .yield r => forFrames decode bad body fuel ((b :: bs).drop n) r

/-- Run `body` over a list until it ends the loop. -/
def foldSteps (body : ρ → α → ForInStep ρ) : ρ → List α → ρ
  | acc, [] => acc
  | acc, a :: as =>
      match body acc a with
      | .done r => r
      | .yield r => foldSteps body r as

section Encoded

variable (decode : List β → Option (α × ℕ)) (encode : γ → List β) (read : γ → α)

/-- The decoder reads an encoded item off the front of any stream. -/
def Reads (c : γ) : Prop :=
  encode c ≠ [] ∧ ∀ rest, decode (encode c ++ rest) = some (read c, (encode c).length)

variable {decode encode read}

theorem prefixFrames_encoded {cs : List γ} (hcs : ∀ c ∈ cs, Reads decode encode read c)
    {tail : List β} (htail : decode tail = none) {fuel : ℕ}
    (hfuel : (cs.flatMap encode ++ tail).length ≤ fuel) :
  prefixFrames decode fuel (cs.flatMap encode ++ tail)
    = (cs.map read, (cs.flatMap encode).length)
  := by
  induction cs generalizing fuel with
  | nil =>
      cases fuel with
      | zero => rfl
      | succ fuel =>
          rw [List.flatMap_nil, List.nil_append, prefixFrames, htail]
          rfl
  | cons c cs ih =>
      obtain ⟨hne, hread⟩ := hcs c List.mem_cons_self
      have hpos : 0 < (encode c).length := List.length_pos_iff.mpr hne
      cases fuel with
      | zero =>
          simp only [List.flatMap_cons, List.length_append] at hfuel
          omega
      | succ fuel =>
          have hlen : (cs.flatMap encode ++ tail).length ≤ fuel := by
            simp only [List.flatMap_cons, List.length_append] at hfuel ⊢
            omega
          rw [List.flatMap_cons, List.append_assoc, prefixFrames, hread]
          simp only [List.drop_left]
          rw [ih (fun d hd => hcs d (List.mem_cons_of_mem _ hd)) hlen]
          simp

theorem forFrames_encoded {cs : List γ} (hcs : ∀ c ∈ cs, Reads decode encode read c)
    (bad : ε) (body : ρ → α → ForInStep ρ) {fuel : ℕ}
    (hfuel : (cs.flatMap encode).length ≤ fuel) (acc : ρ) :
  forFrames decode bad body fuel (cs.flatMap encode) acc
    = .ok (foldSteps body acc (cs.map read))
  := by
  induction cs generalizing fuel acc with
  | nil =>
      cases fuel with
      | zero => rfl
      | succ fuel => rfl
  | cons c cs ih =>
      obtain ⟨hne, hread⟩ := hcs c List.mem_cons_self
      obtain ⟨b, bs, hbs⟩ := List.exists_cons_of_ne_nil hne
      cases fuel with
      | zero =>
          simp [hbs] at hfuel
      | succ fuel =>
          have hlen : (cs.flatMap encode).length ≤ fuel := by
            have hpos : 0 < (encode c).length := List.length_pos_iff.mpr hne
            simp only [List.flatMap_cons, List.length_append] at hfuel
            omega
          have h := hread (cs.flatMap encode)
          rw [List.flatMap_cons, List.map_cons, foldSteps]
          rw [hbs, List.cons_append] at h ⊢
          rw [forFrames, h]
          have hdrop : (b :: (bs ++ cs.flatMap encode)).drop (b :: bs).length
              = cs.flatMap encode := by
            rw [← List.cons_append, List.drop_left]
          simp only [hdrop]
          cases hb : body acc (read c) with
          | done r => simp only
          | yield r =>
              simp only
              apply ih (fun d hd => hcs d (List.mem_cons_of_mem _ hd)) hlen

end Encoded

/-! ### Concatenated streams -/

/-- A decoder that reads the bytes it reports, at least one of them, and no others. -/
structure Exact (decode : List β → Option (α × ℕ)) (size : α → ℕ) : Prop where
  size_eq : ∀ {bs a n}, decode bs = some (a, n) → n = size a
  pos : ∀ {bs a n}, decode bs = some (a, n) → 0 < n
  le : ∀ {bs a n}, decode bs = some (a, n) → n ≤ bs.length
  append : ∀ {bs a n}, decode bs = some (a, n) → ∀ rest, decode (bs ++ rest) = some (a, n)
  take : ∀ {bs a n rest}, decode (bs ++ rest) = some (a, n) → n ≤ bs.length →
    decode bs = some (a, n)

section Exact

variable {decode : List β → Option (α × ℕ)} {size : α → ℕ}

theorem Exact.decode_nil (h : Exact decode size) :
  decode [] = none
  := by
  cases hd : decode [] with
  | none => rfl
  | some d =>
      have hpos := h.pos hd
      have hle := h.le hd
      rw [List.length_nil] at hle
      omega

/-- The frames of a stream do not depend on how much more fuel there is than bytes. -/
theorem prefixFrames_fuel (h : Exact decode size) {fuel : ℕ} {bs : List β}
    (hfuel : bs.length ≤ fuel) :
  prefixFrames decode fuel bs = prefixFrames decode bs.length bs
  := by
  induction fuel using Nat.strongRecOn generalizing bs with
  | _ fuel ih =>
      cases bs with
      | nil =>
          cases fuel with
          | zero => rfl
          | succ fuel => simp [prefixFrames, h.decode_nil]
      | cons b bs =>
          obtain ⟨fuel, rfl⟩ : ∃ f, fuel = f + 1 := by
            rw [List.length_cons] at hfuel
            exact ⟨fuel - 1, by omega⟩
          rw [List.length_cons, prefixFrames, prefixFrames]
          cases hd : decode (b :: bs) with
          | none => rfl
          | some d =>
              obtain ⟨a, n⟩ := d
              have hpos := h.pos hd
              have hlen : ((b :: bs).drop n).length ≤ bs.length := by
                rw [List.length_drop, List.length_cons]
                omega
              have hle : bs.length ≤ fuel := by simpa using hfuel
              simp only
              rw [ih fuel (by omega) (Nat.le_trans hlen hle), ih bs.length (by omega) hlen]

/-- The first frame of a stream, and then the others. -/
theorem prefixFrames_of_some (h : Exact decode size) {bs : List β}
    {a : α} {n : ℕ} (hd : decode bs = some (a, n)) :
  prefixFrames decode bs.length bs
    = (a :: (prefixFrames decode (bs.drop n).length (bs.drop n)).1,
      n + (prefixFrames decode (bs.drop n).length (bs.drop n)).2)
  := by
  have hpos := h.pos hd
  have hle := h.le hd
  obtain ⟨fuel, hfuel⟩ : ∃ f, bs.length = f + 1 := ⟨bs.length - 1, by omega⟩
  have hrest : (bs.drop n).length ≤ fuel := by
    rw [List.length_drop]
    omega
  rw [hfuel, prefixFrames, hd]
  simp only
  rw [prefixFrames_fuel h hrest]

end Exact

/-! ### Splitting -/

/-- The stream is a concatenation of pieces that the decoder reads as these frames. -/
inductive Splits (decode : List β → Option (α × ℕ)) : List β → List α → Prop
  | nil : Splits decode [] []
  | cons {piece rest : List β} {a : α} {as : List α} :
      decode piece = some (a, piece.length) → Splits decode rest as →
      Splits decode (piece ++ rest) (a :: as)

section Splits

variable {decode : List β → Option (α × ℕ)} {size : α → ℕ}

theorem prefixFrames_of_none {bs : List β} (hd : decode bs = none) (fuel : ℕ) :
  prefixFrames decode fuel bs = ([], 0)
  := by
  cases fuel with
  | zero => rfl
  | succ fuel => rw [prefixFrames, hd]

/-- The frames of a stream that splits are those it splits into. -/
theorem Splits.prefixFrames_append (h : Exact decode size) {bs : List β} {as : List α}
    (hs : Splits decode bs as) (rest : List β) :
  prefixFrames decode (bs ++ rest).length (bs ++ rest)
    = (as ++ (prefixFrames decode rest.length rest).1,
      bs.length + (prefixFrames decode rest.length rest).2)
  := by
  induction hs with
  | nil => simp
  | cons hd hs ih =>
      rw [List.append_assoc, prefixFrames_of_some h (h.append hd _), List.drop_left, ih,
        List.length_append, Nat.add_assoc]
      rfl

theorem Splits.prefixFrames_eq (h : Exact decode size) {bs : List β} {as : List α}
    (hs : Splits decode bs as) :
  prefixFrames decode bs.length bs = (as, bs.length)
  := by
  have hframes := hs.prefixFrames_append h []
  rw [List.append_nil] at hframes
  rw [hframes]
  simp [prefixFrames]

theorem Splits.append {bs bs' : List β} {as as' : List α} (hs : Splits decode bs as)
    (hs' : Splits decode bs' as') :
  Splits decode (bs ++ bs') (as ++ as')
  := by
  induction hs with
  | nil => exact hs'
  | cons hd hs ih =>
      rw [List.append_assoc]
      exact .cons hd ih

/-- Encoded items split into what is read off them. -/
theorem splits_encoded {encode : γ → List β} {read : γ → α} {cs : List γ}
    (hcs : ∀ c ∈ cs, Reads decode encode read c) :
  Splits decode (cs.flatMap encode) (cs.map read)
  := by
  induction cs with
  | nil => exact .nil
  | cons c cs ih =>
      have hd := (hcs c List.mem_cons_self).2 []
      rw [List.append_nil] at hd
      rw [List.flatMap_cons, List.map_cons]
      apply Splits.cons hd
      exact ih (fun d hd => hcs d (List.mem_cons_of_mem _ hd))

/-- What the frames at the front of a stream take up splits into them, and what is behind them
does not decode. -/
theorem splits_prefixFrames (h : Exact decode size) (bs : List β) :
  Splits decode (bs.take (prefixFrames decode bs.length bs).2) (prefixFrames decode bs.length bs).1
    ∧ (prefixFrames decode bs.length bs).2 ≤ bs.length
    ∧ decode (bs.drop (prefixFrames decode bs.length bs).2) = none
  := by
  induction hlen : bs.length using Nat.strongRecOn generalizing bs with
  | _ len ih =>
      subst hlen
      cases hd : decode bs with
      | none =>
          rw [prefixFrames_of_none hd]
          exact ⟨.nil, Nat.zero_le _, hd⟩
      | some d =>
          obtain ⟨a, n⟩ := d
          have hpos := h.pos hd
          have hle := h.le hd
          have hpiece : decode (bs.take n) = some (a, (bs.take n).length) := by
            have hsplit := List.take_append_drop n bs
            rw [List.length_take, Nat.min_eq_left hle]
            apply h.take (hsplit.symm ▸ hd)
            rw [List.length_take]
            omega
          have hdrop : (bs.drop n).length = bs.length - n := List.length_drop
          obtain ⟨hsplits, hend, hnone⟩ := ih (bs.drop n).length (by omega) (bs.drop n) rfl
          rw [prefixFrames_of_some h hd]
          refine ⟨?_, by omega, ?_⟩
          · rw [List.take_add]
            exact .cons hpiece hsplits
          · rw [← List.drop_drop]
            exact hnone

/-- The frames at the front of a stream take up its longest prefix that splits. -/
theorem Splits.isPrefix (h : Exact decode size) {bs p : List β} {as : List α}
    (hs : Splits decode p as) (hp : p <+: bs) :
  p <+: bs.take (prefixFrames decode bs.length bs).2
  := by
  obtain ⟨rest, rfl⟩ := hp
  rw [hs.prefixFrames_append h, List.take_length_add_append]
  exact List.prefix_append _ _

/-- The front of a list of frames is what a front of the stream splits into. -/
theorem Splits.exists_append {bs : List β} {before after : List α}
    (hs : Splits decode bs (before ++ after)) :
  ∃ piece rest, bs = piece ++ rest ∧ Splits decode piece before
  := by
  induction before generalizing bs with
  | nil => exact ⟨[], bs, rfl, .nil⟩
  | cons a before ih =>
      cases hs with
      | cons hd hs =>
          obtain ⟨piece, rest, rfl, hpiece⟩ := ih hs
          exact ⟨_ ++ piece, rest, (List.append_assoc _ _ _).symm, .cons hd hpiece⟩

/-- The frames of a stream that splits take up all of it. -/
theorem Splits.sum_size (h : Exact decode size) {bs : List β} {as : List α}
    (hs : Splits decode bs as) :
  (as.map size).sum = bs.length
  := by
  induction hs with
  | nil => rfl
  | cons hd hs ih => rw [List.map_cons, List.sum_cons, ih, List.length_append, h.size_eq hd]

end Splits

/-! ### Streams cut to their end -/

/-- The stream is cut into frames to its end. -/
def Whole (decode : List β → Option (α × ℕ)) (bs : List β) : Prop :=
  (prefixFrames decode bs.length bs).2 = bs.length

section Whole

variable {decode : List β → Option (α × ℕ)} {size : α → ℕ}

@[simp]
theorem whole_nil :
  Whole decode []
  := rfl

theorem Splits.whole (h : Exact decode size) {bs : List β} {as : List α}
    (hs : Splits decode bs as) :
  Whole decode bs
  := by
  rw [Whole, hs.prefixFrames_eq h]

theorem Whole.splits (h : Exact decode size) {bs : List β} (hw : Whole decode bs) :
  Splits decode bs (prefixFrames decode bs.length bs).1
  := by
  have hsplits := (splits_prefixFrames h bs).1
  rw [hw, List.take_length] at hsplits
  exact hsplits

/-- After a whole stream the frames of the rest follow. -/
theorem prefixFrames_append (h : Exact decode size) {bs : List β}
    (hw : Whole decode bs) (rest : List β) :
  prefixFrames decode (bs ++ rest).length (bs ++ rest)
    = ((prefixFrames decode bs.length bs).1 ++ (prefixFrames decode rest.length rest).1,
      bs.length + (prefixFrames decode rest.length rest).2)
  := (hw.splits h).prefixFrames_append h rest

theorem Whole.append_iff (h : Exact decode size) {bs : List β}
    (hw : Whole decode bs) (rest : List β) :
  Whole decode (bs ++ rest) ↔ Whole decode rest
  := by
  rw [Whole, Whole, prefixFrames_append h hw, List.length_append]
  omega

/-- The frames before one of the frames of a stream take up a whole part of it. -/
theorem whole_take_of_prefixFrames (h : Exact decode size)
    {before after : List α} {bs : List β}
    (hframes : (prefixFrames decode bs.length bs).1 = before ++ after) :
  Whole decode (bs.take (before.map size).sum)
  := by
  have hsplits := (splits_prefixFrames h bs).1
  rw [hframes] at hsplits
  obtain ⟨piece, rest, heq, hpiece⟩ := hsplits.exists_append
  rw [← List.take_append_drop (prefixFrames decode bs.length bs).2 bs, heq, List.append_assoc,
    hpiece.sum_size h, List.take_left]
  exact hpiece.whole h

end Whole

/-! ### Single rounds -/

theorem forFrames_of_none {decode : List β → Option (α × ℕ)} {bad : ε}
    {body : ρ → α → ForInStep ρ} {fuel : ℕ} {bs : List β} {acc : ρ} (hne : bs ≠ [])
    (hd : decode bs = none) :
  forFrames decode bad body (fuel + 1) bs acc = .error bad
  := by
  obtain ⟨b, bs, rfl⟩ := List.exists_cons_of_ne_nil hne
  simp only [forFrames, hd]

theorem forFrames_of_yield {decode : List β → Option (α × ℕ)} {bad : ε}
    {body : ρ → α → ForInStep ρ} {fuel n : ℕ} {bs : List β} {acc r : ρ} {a : α} (hne : bs ≠ [])
    (hd : decode bs = some (a, n)) (hb : body acc a = .yield r) :
  forFrames decode bad body (fuel + 1) bs acc = forFrames decode bad body fuel (bs.drop n) r
  := by
  obtain ⟨b, bs, rfl⟩ := List.exists_cons_of_ne_nil hne
  simp only [forFrames, hd, hb]

theorem forFrames_of_done {decode : List β → Option (α × ℕ)} {bad : ε}
    {body : ρ → α → ForInStep ρ} {fuel n : ℕ} {bs : List β} {acc r : ρ} {a : α} (hne : bs ≠ [])
    (hd : decode bs = some (a, n)) (hb : body acc a = .done r) :
  forFrames decode bad body (fuel + 1) bs acc = .ok r
  := by
  obtain ⟨b, bs, rfl⟩ := List.exists_cons_of_ne_nil hne
  simp only [forFrames, hd, hb]

/-- What `prefixFrames` returns has been decoded. -/
theorem exists_decode_of_mem_prefixFrames {decode : List β → Option (α × ℕ)} {fuel : ℕ}
    {bs : List β} {a : α} (h : a ∈ (prefixFrames decode fuel bs).1) :
  ∃ cs n, decode cs = some (a, n)
  := by
  induction fuel generalizing bs with
  | zero => simp [prefixFrames] at h
  | succ fuel ih =>
      rw [prefixFrames] at h
      cases hd : decode bs with
      | none => simp [hd] at h
      | some d =>
          obtain ⟨a', n⟩ := d
          simp only [hd, List.mem_cons] at h
          rcases h with rfl | h
          · exact ⟨bs, n, hd⟩
          · exact ih h

/-- What the body of a loop preserves holds of what the loop returns. -/
theorem forFrames_invariant {decode : List β → Option (α × ℕ)} {bad : ε}
    {body : ρ → α → ForInStep ρ} {P : ρ → Prop}
    (hbody : ∀ acc bs a n, P acc → decode bs = some (a, n) → P (body acc a).value)
    {fuel : ℕ} {bs : List β} {acc r : ρ} (hacc : P acc)
    (h : forFrames decode bad body fuel bs acc = .ok r) :
  P r
  := by
  induction fuel generalizing bs acc with
  | zero =>
      cases bs with
      | nil =>
          obtain rfl := Except.ok.inj h
          exact hacc
      | cons b bs =>
          obtain rfl := Except.ok.inj h
          exact hacc
  | succ fuel ih =>
      cases bs with
      | nil =>
          obtain rfl := Except.ok.inj h
          exact hacc
      | cons b bs =>
          rw [forFrames] at h
          cases hd : decode (b :: bs) with
          | none => simp [hd] at h
          | some d =>
              obtain ⟨a, n⟩ := d
              have hnext := hbody acc (b :: bs) a n hacc hd
              simp only [hd] at h
              cases hb : body acc a with
              | done r' =>
                  rw [hb] at h hnext
                  obtain rfl := Except.ok.inj h
                  exact hnext
              | yield r' =>
                  rw [hb] at h hnext
                  exact ih hnext h

/-! ### The course of a loop -/

/-- How a loop over the frames of a stream ends. -/
inductive Ends (decode : List β → Option (α × ℕ)) (bad : ε) (body : ρ → α → ForInStep ρ) :
    List β → ρ → Except ε ρ → Prop where
  | empty {acc : ρ} : Ends decode bad body [] acc (.ok acc)
  | undecoded {bs : List β} {acc : ρ} :
      bs ≠ [] → decode bs = none → Ends decode bad body bs acc (.error bad)
  | done {bs : List β} {acc r : ρ} {a : α} {n : ℕ} :
      bs ≠ [] → decode bs = some (a, n) → body acc a = .done r → Ends decode bad body bs acc (.ok r)
  | yield {bs : List β} {acc r : ρ} {a : α} {n : ℕ} {result : Except ε ρ} :
      bs ≠ [] → decode bs = some (a, n) → body acc a = .yield r →
      Ends decode bad body (bs.drop n) r result → Ends decode bad body bs acc result

/-- With a round for every element of the stream, the loop runs to its end. -/
theorem ends_forFrames (decode : List β → Option (α × ℕ)) (bad : ε)
    (body : ρ → α → ForInStep ρ) (hpos : ∀ bs a n, decode bs = some (a, n) → 0 < n) {fuel : ℕ}
    {bs : List β} (acc : ρ) (hfuel : bs.length ≤ fuel) :
  Ends decode bad body bs acc (forFrames decode bad body fuel bs acc)
  := by
  induction fuel generalizing bs acc with
  | zero =>
      obtain rfl := List.length_eq_zero_iff.mp (Nat.le_zero.mp hfuel)
      exact .empty
  | succ fuel ih =>
      cases bs with
      | nil => exact .empty
      | cons b bs =>
          rw [forFrames]
          cases hd : decode (b :: bs) with
          | none => exact .undecoded (List.cons_ne_nil b bs) hd
          | some d =>
              obtain ⟨a, n⟩ := d
              cases hb : body acc a with
              | done r =>
                  simp only [hb]
                  exact .done (List.cons_ne_nil b bs) hd hb
              | yield r =>
                  simp only [hb]
                  apply Ends.yield (List.cons_ne_nil b bs) hd hb
                  apply ih
                  have hn := hpos _ _ _ hd
                  rw [List.length_drop]
                  omega

/-- A loop that fails has met something that does not decode. -/
theorem Ends.error_eq {decode : List β → Option (α × ℕ)} {bad e : ε}
    {body : ρ → α → ForInStep ρ} {bs : List β} {acc : ρ} {result : Except ε ρ}
    (h : Ends decode bad body bs acc result) (he : result = .error e) :
  e = bad
  := by
  induction h with
  | empty => simp at he
  | undecoded _ _ => exact (Except.error.inj he).symm
  | done _ _ _ => simp at he
  | yield _ _ _ _ ih => exact ih he

/-- The positions a loop over the frames of a stream looks at: those `reads` lists for each frame,
counted from the position where the stream begins. -/
def forReads (decode : List β → Option (α × ℕ)) (reads : List β → List ℕ)
    (body : ρ → α → ForInStep ρ) : ℕ → ℕ → List β → ρ → List ℕ
  | _, _, [], _ => []
  | 0, _, _ :: _, _ => []
  | fuel + 1, start, b :: bs, acc =>
      (reads (b :: bs)).map (start + ·) ++
        match decode (b :: bs) with
        | none => []
        | some (a, n) =>
            match body acc a with
            | .done _ => []
            | .yield r => forReads decode reads body fuel (start + n) ((b :: bs).drop n) r

/-- When no frame is looked at beyond the stream, the loop does not look beyond it. -/
theorem lt_of_mem_forReads {decode : List β → Option (α × ℕ)} {reads : List β → List ℕ}
    {body : ρ → α → ForInStep ρ} (hreads : ∀ bs, ∀ i ∈ reads bs, i < bs.length) {fuel start : ℕ}
    {bs : List β} {acc : ρ} {i : ℕ} (hi : i ∈ forReads decode reads body fuel start bs acc) :
  i < start + bs.length
  := by
  induction fuel generalizing start bs acc with
  | zero =>
      cases bs with
      | nil => simp [forReads] at hi
      | cons b bs => simp [forReads] at hi
  | succ fuel ih =>
      cases bs with
      | nil => simp [forReads] at hi
      | cons b bs =>
          rw [forReads, List.mem_append] at hi
          rcases hi with hi | hi
          · obtain ⟨j, hj, rfl⟩ := List.mem_map.mp hi
            have hlt := hreads _ j hj
            omega
          · cases hd : decode (b :: bs) with
            | none => simp [hd] at hi
            | some d =>
                obtain ⟨a, n⟩ := d
                cases hb : body acc a with
                | done r => simp [hd, hb] at hi
                | yield r =>
                    simp only [hd, hb] at hi
                    have hlt := ih hi
                    -- The rest of the stream is not empty, so the frame lies inside it.
                    have hne : (b :: bs).drop n ≠ [] := by
                      intro hnil
                      rw [hnil] at hi
                      cases fuel with
                      | zero => simp [forReads] at hi
                      | succ fuel => simp [forReads] at hi
                    have hn := List.length_pos_iff.mpr hne
                    rw [List.length_drop] at hlt hn
                    omega

/-! ### Loop bodies that never end the loop -/

/-- A body that appends what it sees collects the list. -/
theorem foldSteps_collect (f : α → ρ) (acc : List ρ) (as : List α) :
  foldSteps (fun acc a => .yield (acc ++ [f a])) acc as = acc ++ as.map f
  := by
  induction as generalizing acc with
  | nil => simp [foldSteps]
  | cons a as ih =>
      simp only [foldSteps]
      rw [ih]
      simp

end Framing
