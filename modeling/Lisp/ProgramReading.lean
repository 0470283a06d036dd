import Lisp.ProgramFile
import Lisp.Balance

/-! How a program file is cut up: the pieces that `fgets` returns, and the runs of pieces
that `get_expression_from_file` puts together. -/
namespace Lisp
variable {file body last e l : Text} {ls run lines : List Text} {r r' : Reader}

section pieces

/-- What `fgets` returns of a file, call after call. -/
def pieces (file : Text) : List Text :=
  if h : file = [] then [] else
  have : 0 < lineLength (bufSize - 1) file := lineLength_pos h (by decide)
  file.take (lineLength (bufSize - 1) file) :: pieces (file.drop (lineLength (bufSize - 1) file))
termination_by file.length
decreasing_by
  have := List.length_pos_iff.2 h
  simp
  omega

theorem pieces_nil : pieces [] = [] := by simp [pieces]

theorem pieces_ne (h : file ≠ []) : pieces file = file.take (lineLength (bufSize - 1) file) ::
    pieces (file.drop (lineLength (bufSize - 1) file)) := by
  rw [pieces, dif_neg h]

theorem pieces_eq_nil : pieces file = [] ↔ file = [] := by
  constructor
  · intro h
    by_contra hf
    rw [pieces_ne hf] at h
    cases h
  · rintro rfl
    exact pieces_nil

theorem flatten_pieces (file : Text) : (pieces file).flatten = file := by
  fun_induction pieces file with
  | case1 => rfl
  | case2 file h _ ih => rw [List.flatten_cons, ih, List.take_append_drop]

theorem lineLength_le (size : Nat) (s : Text) : lineLength size s ≤ s.length := by
  induction s generalizing size with
  | nil => cases size <;> simp [lineLength]
  | cons c s ih =>
    cases size with
    | zero => simp [lineLength]
    | succ size =>
      have hrest := ih size
      simp only [lineLength, List.length_cons]
      split_ifs
      all_goals omega

theorem lineLength_line {size : Nat} (rest : Text) (hb : '\n' ∉ body) (hs : body.length < size) :
    lineLength size (body ++ '\n' :: rest) = body.length + 1 := by
  induction body generalizing size with
  | nil =>
    obtain ⟨size, rfl⟩ := Nat.exists_eq_add_one_of_ne_zero (Nat.ne_of_gt hs)
    simp [lineLength]
  | cons c body ih =>
    obtain ⟨size, rfl⟩ := Nat.exists_eq_add_one_of_ne_zero (Nat.ne_of_gt (Nat.zero_lt_of_lt hs))
    have hc : c ≠ '\n' := fun h => hb (by simp [h])
    have hrest := ih (fun h => hb (by simp [h])) (Nat.lt_of_succ_lt_succ hs)
    simp [lineLength, hc, hrest]

theorem lineLength_last {size : Nat} (hb : '\n' ∉ last) (hs : last.length ≤ size) :
    lineLength size last = last.length := by
  induction last generalizing size with
  | nil => cases size <;> rfl
  | cons c last ih =>
    obtain ⟨size, rfl⟩ := Nat.exists_eq_add_one_of_ne_zero (Nat.ne_of_gt (Nat.zero_lt_of_lt hs))
    have hc : c ≠ '\n' := fun h => hb (by simp [h])
    have hrest := ih (fun h => hb (by simp [h])) (Nat.le_of_succ_le_succ hs)
    simp [lineLength, hc, hrest]

/-- Where every line is shorter than the buffer, the pieces are the lines. -/
theorem pieces_lines (hlines : ∀ l ∈ lines, ∃ body, l = body ++ ['\n'] ∧ '\n' ∉ body ∧
    l.length < bufSize) (hb : '\n' ∉ last) (hlast : last.length < bufSize) :
    pieces (lines.flatten ++ last) = if last = [] then lines else lines ++ [last] := by
  induction lines with
  | nil =>
    by_cases hne : last = []
    · subst hne
      simp [pieces_nil]
    · have hlen := lineLength_last hb (Nat.le_sub_one_of_lt hlast)
      simp [hne, pieces_ne hne, hlen, pieces_nil]
  | cons l lines ih =>
    obtain ⟨body, rfl, hbody, hlen⟩ := hlines l (by simp)
    have hsize : body.length < bufSize - 1 := by
      simp at hlen
      omega
    have happend : (((body ++ ['\n']) :: lines).flatten ++ last) =
        body ++ '\n' :: (lines.flatten ++ last) := by simp
    have hcut := lineLength_line (lines.flatten ++ last) hbody hsize
    have hdrop : (body ++ '\n' :: (lines.flatten ++ last)).drop (body.length + 1) =
        lines.flatten ++ last := by
      rw [← List.drop_drop, List.drop_left]
      rfl
    have htake : (body ++ '\n' :: (lines.flatten ++ last)).take (body.length + 1) =
        body ++ ['\n'] := by
      rw [List.take_length_add_append]
      rfl
    have hrest := ih fun l hl => hlines l (by simp [hl])
    rw [happend, pieces_ne (by simp), hcut, hdrop, htake, hrest]
    split_ifs
    · rfl
    · rfl

end pieces

section reading

theorem fgets_end (hf : r.file = []) : fgets r = (true, r) := by
  simp [fgets, hf]

theorem fgets_piece (h : pieces r.file = l :: ls) : ∃ rest, r.file = l ++ rest ∧
    pieces rest = ls ∧ fgets r = (false, ⟨rest, r.pos + l.length, l⟩) := by
  have hf : r.file ≠ [] := by
    intro hf
    rw [hf, pieces_nil] at h
    cases h
  have hflat := flatten_pieces r.file
  rw [pieces_ne hf] at h hflat
  obtain ⟨hl, hls⟩ := List.cons.inj h
  have hlen : (r.file.take (lineLength (bufSize - 1) r.file)).length =
      lineLength (bufSize - 1) r.file := by
    rw [List.length_take, Nat.min_eq_left (lineLength_le _ _)]
  refine ⟨r.file.drop (lineLength (bufSize - 1) r.file), ?_, hls, ?_⟩
  · rw [← hl, List.take_append_drop]
  · rw [← hl, hlen]
    simp [fgets, hf]

theorem length_piece_pos (h : pieces r.file = l :: ls) : 0 < l.length := by
  obtain ⟨rest, hfile, -, hread⟩ := fgets_piece h
  have hshorter := fgets_shorter (r := r) (by rw [hread])
  rw [hread, hfile, List.length_append] at hshorter
  simp only at hshorter
  omega

/-- The reader once the pieces of `run` are read. -/
structure After (r : Reader) (run : List Text) (r' : Reader) : Prop where
  file : r.file = run.flatten ++ r'.file
  pos : r'.pos = r.pos + run.flatten.length
  buff : r'.buff = run.getLastD r.buff

theorem After.refl (r : Reader) : After r [] r := ⟨rfl, rfl, rfl⟩

theorem After.cons (hfile : r.file = l ++ file)
    (h : After ⟨file, r.pos + l.length, l⟩ run r') : After r (l :: run) r' := by
  obtain ⟨hrest, hpos, hbuff⟩ := h
  simp only at hrest hpos hbuff
  constructor
  case file => rw [hfile, hrest, List.flatten_cons, List.append_assoc]
  case pos =>
    rw [hpos, List.flatten_cons, List.length_append]
    omega
  case buff => rw [hbuff, List.getLastD_cons]

/-- A run of pieces that is read at once: it is balanced, and no beginning of it is. -/
structure Group (run : List Text) : Prop where
  nonempty : run ≠ []
  counts : Counts 0 0 run.flatten
  opens : ∀ k, 0 < k → k < run.length → isBalanced (run.take k).flatten = false

theorem gather_run (h : pieces r.file = run ++ ls) (hc : Counts 0 0 (e ++ run.flatten))
    (hopen : ∀ k < run.length, isBalanced (e ++ (run.take k).flatten) = false) :
    ∃ r', After r run r' ∧ pieces r'.file = ls ∧
      gather false e r = ⟨some (e ++ run.flatten), false, false, r'⟩ := by
  induction run generalizing e r with
  | nil =>
    have hvalid : isValid e = true := by simpa [isValid] using hc.valid
    have hbalanced : isBalanced e = true := by simpa using hc.isBalanced.2 rfl
    refine ⟨r, .refl r, h, ?_⟩
    rw [gather]
    simp [hvalid, hbalanced]
  | cons l run ih =>
    obtain ⟨rest, hfile, hrest, hread⟩ := fgets_piece h
    have hunbalanced : isBalanced e = false := by simpa using hopen 0 (by simp)
    have hvalid : isValid e = true := by
      obtain ⟨k, hk, -⟩ := hc.take le_rfl
      exact hk.valid
    have hopen' : ∀ k < run.length, isBalanced (e ++ l ++ (run.take k).flatten) = false := by
      intro k hk
      simpa using hopen (k + 1) (by simpa using hk)
    obtain ⟨r', hafter, hpieces, hgather⟩ := ih (r := ⟨rest, r.pos + l.length, l⟩) hrest
      (by simpa using hc) hopen'
    refine ⟨r', .cons hfile hafter, hpieces, ?_⟩
    rw [gather, hread]
    simp [hvalid, hunbalanced, hgather]

theorem Group.read (hg : Group run) (h : pieces r.file = run ++ ls) :
    ∃ r', After r run r' ∧ pieces r'.file = ls ∧
      getExpressionFromFile r = ⟨some run.flatten, false, false, r'⟩ := by
  cases run with
  | nil => exact absurd rfl hg.nonempty
  | cons l run =>
    obtain ⟨rest, hfile, hrest, hread⟩ := fgets_piece h
    have hopens : ∀ k < run.length, isBalanced (l ++ (run.take k).flatten) = false := by
      intro k hk
      simpa using hg.opens (k + 1) (by omega) (by simpa using hk)
    obtain ⟨r', hafter, hpieces, hgather⟩ := gather_run (r := ⟨rest, r.pos + l.length, l⟩) hrest
      (by simpa using hg.counts) hopens
    refine ⟨r', .cons hfile hafter, hpieces, ?_⟩
    rw [getExpressionFromFile, hread, hgather, List.flatten_cons]

/-- The last line of a longer run closes a parenthesis that it does not open. -/
theorem Group.last_invalid (hg : Group (run ++ [last])) (hrun : run ≠ []) :
    isValid last = false := by
  have hopen := hg.opens run.length (List.length_pos_iff.2 hrun) (by simp)
  have hc := hg.counts
  rw [List.take_left] at hopen
  rw [List.flatten_append, List.flatten_singleton] at hc
  obtain ⟨m, hfirst, hlast⟩ := hc.take le_rfl
  have hm : m ≠ 0 := by
    intro h
    rw [hfirst.isBalanced.2 h] at hopen
    cases hopen
  have hpos := hfirst.nonneg
  have hnet := hlast.net
  rw [netFrom_eq] at hnet
  by_contra hvalid
  have hcounts : Counts 0 (netFrom 0 last) last := ⟨by simpa [isValid] using hvalid, rfl⟩
  have := hcounts.nonneg
  omega

/-- Pieces whose parentheses match begin with a group. -/
theorem exists_group (hls : ls ≠ []) (hc : Counts 0 0 ls.flatten) :
    ∃ run rest, ls = run ++ rest ∧ Group run ∧ Counts 0 0 rest.flatten := by
  have hex : ∃ k, 0 < k ∧ isBalanced (ls.take k).flatten = true := by
    refine ⟨ls.length, List.length_pos_iff.2 hls, ?_⟩
    rw [List.take_length]
    exact hc.isBalanced.2 rfl
  classical
  obtain ⟨hpos, hbalanced⟩ := Nat.find_spec hex
  have hmin := fun k => Nat.find_min hex (m := k)
  generalize Nat.find hex = k at hpos hbalanced hmin
  have hsplit : ls.flatten = (ls.take k).flatten ++ (ls.drop k).flatten := by
    rw [← List.flatten_append, List.take_append_drop]
  rw [hsplit] at hc
  obtain ⟨m, hfirst, hrest⟩ := hc.take le_rfl
  obtain rfl := hfirst.isBalanced.1 hbalanced
  refine ⟨ls.take k, ls.drop k, (List.take_append_drop k ls).symm, ⟨?_, hfirst, ?_⟩, hrest⟩
  · simp [hls, Nat.ne_of_gt hpos]
  · intro j hj hjk
    have hlt : j < k := by
      simp at hjk
      omega
    have hnot := hmin j hlt
    rw [List.take_take, Nat.min_eq_left hlt.le]
    simpa [hj] using hnot

end reading

section running
variable {F : Type} [CFloat F] {σ : Type} {evaluate : σ → Obj F → Option σ} {s : σ} {fuel n : Nat}
  {o : Obj F} {p : Passed F}

/-- What is passed to `eval` of a text that was read at an offset. -/
def passedAt (offset : Nat) (e : Text) (o : Obj F) (n : Nat) : Passed F :=
  ⟨offset + (e.takeWhile isWhiteSpace).length, offset + n, o⟩

theorem start_of_ne (hf : r.file ≠ []) : r.start = r.pos := if_neg hf

theorem interpretProgram_group (evaluate : σ → Obj F → Option σ) (s : σ) (hg : Group run)
    (hp : pieces r.file = run ++ ls)
    (hparse : parseExpression run.flatten fuel 0 = .ok (o, n)) :
    ∃ r', After r run r' ∧ pieces r'.file = ls ∧ interpretProgram evaluate fuel r s =
      if o.isNull then interpretProgram evaluate fuel r' s
      else match evaluate s o with
        | none => ([passedAt r.pos run.flatten o n], .nullResult false)
        | some s' => (passedAt r.pos run.flatten o n :: (interpretProgram evaluate fuel r' s').1,
            (interpretProgram evaluate fuel r' s').2) := by
  obtain ⟨r', hafter, hpieces, hget⟩ := hg.read hp
  have hf : r.file ≠ [] := by
    intro hf
    rw [hf, pieces_nil] at hp
    exact hg.nonempty (List.append_eq_nil_iff.1 hp.symm).1
  refine ⟨r', hafter, hpieces, ?_⟩
  rw [interpretProgram]
  simp only [hget, readExpression, hparse, passed, passedAt, start_of_ne hf]
  cases evaluate s o with
  | none => simp
  | some s' => simp

theorem interpretProgram_group_error {fault : Fault} (hg : Group run)
    (hp : pieces r.file = run ++ ls)
    (hparse : (parseExpression run.flatten fuel 0 : Except Fault (Obj F × Nat)) = .error fault) :
    interpretProgram evaluate fuel r s = ([], .noReturn fault) := by
  obtain ⟨r', hafter, hpieces, hget⟩ := hg.read hp
  rw [interpretProgram]
  simp [hget, readExpression, hparse]

theorem getExpression_end (hf : r.file = []) :
    getExpressionFromFile r = gather true r.buff r := by
  rw [getExpressionFromFile, fgets_end hf]

/-- At the end of the file the text in the buffer is read once more. -/
theorem interpretProgram_end (hf : r.file = []) (hc : Counts 0 0 r.buff)
    (hparse : parseExpression r.buff fuel 0 = .ok (o, n)) : interpretProgram evaluate fuel r s =
      if o.isNull then ([], .endOfFile)
      else ([passedAt (r.pos - r.buff.length) r.buff o n],
        if (evaluate s o).isNone then .nullResult true else .endOfFile) := by
  have hvalid : isValid r.buff = true := hc.valid
  have hbalanced : isBalanced r.buff = true := hc.isBalanced.2 rfl
  have hget : getExpressionFromFile r = ⟨some r.buff, true, false, r⟩ := by
    rw [getExpression_end hf, gather]
    simp [hvalid, hbalanced]
  have hstart : r.start = r.pos - r.buff.length := if_pos hf
  rw [interpretProgram]
  cases heval : evaluate s o with
  | none => simp [hget, readExpression, hparse, passed, passedAt, hstart, heval]
  | some s' => simp [hget, readExpression, hparse, passed, passedAt, hstart, heval]

theorem interpretProgram_end_invalid (hf : r.file = []) (hv : isValid r.buff = false) :
    interpretProgram evaluate fuel r s = ([], .syntaxError) := by
  have hget : getExpressionFromFile r = ⟨none, true, true, r⟩ := by
    rw [getExpression_end hf, gather]
    simp [hv]
  rw [interpretProgram]
  simp [hget]

theorem interpretProgram_end_valid (hf : r.file = []) (hv : isValid r.buff = true) :
    (interpretProgram evaluate fuel r s).2 ≠ .syntaxError ∧
      (interpretProgram evaluate fuel r s).1.length ≤ 1 := by
  have hget : ∃ expr, getExpressionFromFile r = ⟨expr, true, false, r⟩ := by
    rw [getExpression_end hf, gather]
    by_cases hbalanced : isBalanced r.buff = true
    · exact ⟨some r.buff, by simp [hv, hbalanced]⟩
    · exact ⟨none, by simp [hv, hbalanced]⟩
  obtain ⟨expr, hget⟩ := hget
  rw [interpretProgram]
  simp only [hget]
  cases (readExpression fuel expr : Except Fault (Obj F × Nat)) with
  | error fault => simp
  | ok parsed =>
    by_cases hnull : parsed.1.isNull = true
    · simp [hnull]
    · cases heval : evaluate s parsed.1 with
      | none => simp [hnull, heval]
      | some s' => simp [hnull, heval]

theorem base_le_start (r : Reader) : r.pos - r.buff.length ≤ r.start := by
  unfold Reader.start
  split_ifs
  · exact le_rfl
  · exact Nat.sub_le _ _

theorem fgets_base (hf : r.file ≠ []) :
    (fgets r).2.pos - (fgets r).2.buff.length = r.pos := by
  have hle := lineLength_le (bufSize - 1) r.file
  simp [fgets, hf]
  omega

theorem gather_start (eof : Bool) (e : Text) (r : Reader) :
    r.pos - r.buff.length ≤ (gather eof e r).reader.start := by
  fun_induction gather eof e r with
  | case1 => exact base_le_start _
  | case2 => exact base_le_start _
  | case3 => exact base_le_start _
  | case4 _ e r _ _ _ ih =>
    by_cases hf : r.file = []
    · simpa [fgets_end hf] using ih
    · have hbase := fgets_base hf
      omega

theorem getExpression_start (hf : r.file ≠ []) :
    r.pos ≤ (getExpressionFromFile r).reader.start := by
  have h := gather_start (fgets r).1 (fgets r).2.buff (fgets r).2
  rwa [fgets_base hf] at h

theorem getExpression_eof (h : ¬(getExpressionFromFile r).eof = true) : r.file ≠ [] := by
  intro hf
  rw [getExpression_end hf] at h
  have := gather_eof (by simpa using h)
  cases this

/-- What is passed to `eval` is read no earlier in the file than where the reader is. -/
theorem start_le (evaluate : σ → Obj F → Option σ) (fuel : Nat) (r : Reader) (s : σ) :
    ∀ p ∈ (interpretProgram evaluate fuel r s).1, r.start ≤ p.start := by
  have hnext : ∀ {r : Reader}, ¬(getExpressionFromFile r).eof = true →
      r.start ≤ (getExpressionFromFile r).reader.start := by
    intro r heof
    have hf := getExpression_eof heof
    rw [start_of_ne hf]
    exact getExpression_start hf
  have hpassed : ∀ (r : Reader) (e : Text) (parsed : Obj F × Nat),
      r.start ≤ (passed r e parsed).start := fun _ _ _ => Nat.le_add_right _ _
  fun_induction interpretProgram evaluate fuel r s with
  | case1 => simp
  | case2 => simp
  | case3 => simp
  | case4 r s _ parsed hread hnull heof ih => exact fun p hp => (hnext heof).trans (ih p hp)
  | case5 r s _ parsed => simpa using hpassed r _ parsed
  | case6 r s _ parsed => simpa using hpassed r _ parsed
  | case7 r s _ parsed _ _ _ _ _ heof rest ih =>
    intro p hp
    rcases List.mem_cons.1 hp with rfl | hp
    · exact hpassed r _ parsed
    · exact (hnext heof).trans (ih p hp)

end running

end Lisp
