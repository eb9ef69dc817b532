/-
  Xv6.Console.Reads — what readers of the console get, over whole runs.

  Every character that leaves the buffer goes to one call of `consoleread`. The invariant
  (`Inv`) keeps, for each call under way, that it holds what it took, and for each call that has
  returned how it ended (`Ended`).
-/

import Xv6.Console.Discipline

namespace Xv6.Console

open Lib (update update_self update_of_ne Window Reach)

/-- The characters that a call took. -/
def share (taken : List (Nat × UInt8)) (id : Nat) : List UInt8 := (taken.filter (·.1 = id)).map Prod.snd

variable {taken taken' : List (Nat × UInt8)} {id i : Nat} {l : List UInt8}

theorem share_append : share (taken ++ taken') id = share taken id ++ share taken' id := by
  simp [share]

theorem share_own : share (l.map (id, ·)) id = l := by
  induction l with
  | nil => rfl
  | cons x l ih =>
    simp only [share, List.map_cons, decide_true, List.filter_cons_of_pos] at ih ⊢
    rw [ih]

theorem share_other (h : i ≠ id) : share (l.map (i, ·)) id = [] := by
  simp [share, h]

variable {t : Nat × UInt8} {res : Result} {x : Pc}

theorem mem_share (ht : t ∈ taken) : t.2 ∈ share taken t.1 :=
  List.mem_map_of_mem (List.mem_filter.mpr ⟨ht, by simp⟩)

/-- How a call ended that took `own`; `stream` is what was committed so far. -/
structure Ended (stream : List UInt8) (res : Result) (own : List UInt8) : Prop where
  own : own = res.got ++ if res.why = .eof then [ctrl 'D'] else []
  ret : res.ret = if res.why = .empty then -1 else (res.got.length : Int)
  noD : ctrl 'D' ∉ res.got
  newline : if res.why = .newline then ∃ ys, res.got = ys ++ [Console.newline] ∧ Console.newline ∉ ys
    else Console.newline ∉ res.got
  le : res.got.length ≤ res.n
  full : res.why = .full → res.got.length = res.n
  eof : res.why = .eof → res.got = [] ∧ 0 < res.n
  /-- The control-D is the next character after those that had left the buffer. -/
  kept : res.why = .kept → res.got ≠ [] ∧ res.got.length < res.n ∧ stream[res.pos]? = some (ctrl 'D')
  empty : res.why = .empty → res.got.length < res.n

theorem Ended.mono {stream own more : List UInt8} (h : Ended stream res own) : Ended (stream ++ more) res own :=
  { h with
    kept := by
      intro hwhy
      obtain ⟨hgot, hlt, hD⟩ := h.kept hwhy
      exact ⟨hgot, hlt, by rw [List.getElem?_append_left (List.getElem?_eq_some_iff.mp hD).1, hD]⟩ }

/-- A call under way holds what it took. -/
structure Busy (s : St) (rd : Reader) : Prop where
  id : rd.id < s.calls
  left : rd.left + rd.got.length = rd.target
  own : share s.taken rd.id = rd.got
  noD : ctrl 'D' ∉ rd.got
  noNewline : newline ∉ rd.got

def St.reader (s : St) (p : Nat) : Option Reader := (s.pc p).reader

structure Inv (s : St) (Q L : List UInt8) : Prop where
  holds : Holds s.cons Q L
  stream : s.keys.foldl edit ([], []) = (s.taken.map Prod.snd ++ Q, L)
  busy : ∀ p rd, s.reader p = some rd → Busy s rd
  distinct : ∀ p q rd rd', s.reader p = some rd → s.reader q = some rd' → rd.id = rd'.id → p = q
  ended : ∀ res ∈ s.results, Ended (s.taken.map Prod.snd ++ Q) res (share s.taken res.id)
  past : ∀ res ∈ s.results, res.id < s.calls ∧ ∀ p rd, s.reader p = some rd → rd.id ≠ res.id
  once : (s.results.map Result.id).Nodup
  owned : ∀ t ∈ s.taken, (∃ res ∈ s.results, res.id = t.1) ∨ ∃ p rd, s.reader p = some rd ∧ rd.id = t.1

variable {s s' : St} {Q L : List UInt8} {p : Nat} {rd : Reader}

/-- Only `p` has moved. -/
theorem reader_move (hpc : s'.pc = update s.pc p x) :
    s'.reader p = x.reader ∧ ∀ q, q ≠ p → s'.reader q = s.reader q := by
  constructor
  · rw [St.reader, hpc, update_self]
  · intro q hq
    rw [St.reader, hpc, update_of_ne hq]
    rfl

theorem Pc.wake_reader (pc : Pc) : pc.wake.reader = pc.reader := by
  cases pc <;> rfl

section

variable (h : Inv s Q L)
include h

/-- A step that leaves the calls as they are. -/
theorem Inv.same_calls {Q' L' : List UInt8} (hreader : ∀ q, s'.reader q = s.reader q) (hcalls : s'.calls = s.calls)
    (htaken : s'.taken = s.taken) (hresults : s'.results = s.results) (hholds : Holds s'.cons (Q ++ Q') L')
    (hstream : s'.keys.foldl edit ([], []) = (s'.taken.map Prod.snd ++ (Q ++ Q'), L')) : Inv s' (Q ++ Q') L' where
  holds := hholds
  stream := hstream
  busy := by
    intro p rd hrd
    obtain ⟨hid, hleft, hown, hnoD, hnl⟩ := h.busy p rd ((hreader p).symm.trans hrd)
    exact ⟨by rwa [hcalls], hleft, by rwa [htaken], hnoD, hnl⟩
  distinct p q rd rd' hp hq := h.distinct p q rd rd' ((hreader p).symm.trans hp) ((hreader q).symm.trans hq)
  ended := by
    rw [hresults, htaken]
    intro res hres
    rw [← List.append_assoc]
    exact (h.ended res hres).mono
  past := by
    rw [hresults, hcalls]
    intro res hres
    exact ⟨(h.past res hres).1, fun p rd hrd => (h.past res hres).2 p rd ((hreader p).symm.trans hrd)⟩
  once := by
    rw [hresults]
    exact h.once
  owned := by
    rw [hresults, htaken]
    intro t ht
    rcases h.owned t ht with hres | ⟨p, rd, hrd, hid⟩
    · exact .inl hres
    · exact .inr ⟨p, rd, (hreader p).trans hrd, hid⟩

theorem Inv.type (ch : UInt8) (hs : act s (.type ch) = some s') : ∃ Q' L', Inv s' (Q ++ Q') L' := by
  obtain rfl := Option.some.inj hs
  refine ⟨_, _, h.same_calls (fun q => ?_) rfl rfl rfl (h.holds.consoleintr ch).2 ?_⟩
  · simp only [St.reader]
    split
    · exact Pc.wake_reader _
    · rfl
  · simp only [List.foldl_append, List.foldl_cons, List.foldl_nil, h.stream]
    rw [edit_append, List.append_assoc]

theorem Inv.kill (hs : act s (.kill p) = some s') : Inv s' Q L := by
  have hs' : s' = { s with killed := update s.killed p true, pc := update s.pc p (s.pc p).wake } := (Option.some.inj hs).symm
  have hpc : s'.pc = update s.pc p (s.pc p).wake := by rw [hs']
  obtain ⟨hp, hother⟩ := reader_move hpc
  have hreader : ∀ q, s'.reader q = s.reader q := by
    intro q
    by_cases hq : q = p
    · rw [hq, hp]
      exact Pc.wake_reader _
    · exact hother q hq
  have hsame : Inv s' (Q ++ []) L :=
    h.same_calls hreader (by rw [hs']) (by rw [hs']) (by rw [hs']) (by simpa [hs'] using h.holds) (by simpa [hs'] using h.stream)
  rwa [List.append_nil] at hsame

/-- No call has the next number. -/
theorem Inv.fresh : share s.taken s.calls = [] := by
  rw [share, List.map_eq_nil_iff, List.filter_eq_nil_iff]
  intro t ht heq
  have hid : t.1 = s.calls := by simpa using heq
  rcases h.owned t ht with ⟨res, hres, hr⟩ | ⟨p, rd, hrd, hr⟩
  · have := (h.past res hres).1
    omega
  · have := (h.busy p rd hrd).id
    omega

/-- Process `p` starts, continues or ends a call; the others stay where they are, with
characters of their own. -/
theorem Inv.others (hpc : s'.pc = update s.pc p x) (hcalls : s.calls ≤ s'.calls) (hshare : ∀ q rd, q ≠ p → s.reader q = some rd →
      share s'.taken rd.id = share s.taken rd.id) :
    ∀ q rd, q ≠ p → s'.reader q = some rd → s.reader q = some rd ∧ Busy s' rd := by
  intro q rd hq hrd
  rw [(reader_move hpc).2 q hq] at hrd
  obtain ⟨hid, hleft, hown, hnoD, hnl⟩ := h.busy q rd hrd
  exact ⟨hrd, ⟨by omega, hleft, by rw [hshare q rd hq hrd, hown], hnoD, hnl⟩⟩

/-- Every call under way was so before, or is the newest of all: no two have one number, and none
has that of a call that had ended. -/
theorem Inv.numbers (s' : St) (p : Nat) (hcame : ∀ q rd', s'.reader q = some rd' →
      (∃ rd0, s.reader q = some rd0 ∧ rd0.id = rd'.id) ∨ q = p ∧ rd'.id = s.calls) :
    (∀ q q' rd1 rd2, s'.reader q = some rd1 → s'.reader q' = some rd2 → rd1.id = rd2.id → q = q') ∧
      ∀ res ∈ s.results, ∀ q rd', s'.reader q = some rd' → rd'.id ≠ res.id := by
  refine ⟨fun q q' rd1 rd2 h1 h2 heq => ?_, fun res hres q rd' hrd => ?_⟩
  · rcases hcame q rd1 h1 with ⟨r1, hr1, hi1⟩ | ⟨rfl, hi1⟩
    · rcases hcame q' rd2 h2 with ⟨r2, hr2, hi2⟩ | ⟨rfl, hi2⟩
      · exact h.distinct q q' r1 r2 hr1 hr2 (hi1.trans (heq.trans hi2.symm))
      · have := (h.busy q r1 hr1).id
        omega
    · rcases hcame q' rd2 h2 with ⟨r2, hr2, hi2⟩ | ⟨rfl, -⟩
      · have := (h.busy q' r2 hr2).id
        omega
      · rfl
  · obtain ⟨hlt, hne⟩ := h.past res hres
    rcases hcame q rd' hrd with ⟨r0, hr0, hi0⟩ | ⟨-, hi⟩
    · exact hi0 ▸ hne q r0 hr0
    · omega

theorem Inv.read {n : Int} (hs : act s (.read p n) = some s') : Inv s' Q L := by
  rw [act] at hs
  split at hs
  next hout =>
    have hs' := (Option.some.inj hs).symm
    have hpc : s'.pc = update s.pc p (.ready ⟨s.calls, n.toNat, n.toNat, []⟩) := by rw [hs']
    obtain ⟨hp, hq⟩ := reader_move hpc
    have hothers := h.others hpc (by rw [hs']; exact Nat.le_succ _) fun q rd _ _ => by rw [hs']
    obtain ⟨hdistinct, hpast⟩ := h.numbers s' p fun q rd hrd => by
      by_cases hq : q = p
      · rw [hq, hp] at hrd
        exact .inr ⟨hq, congrArg Reader.id (Option.some.inj hrd).symm⟩
      · exact .inl ⟨rd, (hothers q rd hq hrd).1, rfl⟩
    subst hs'
    exact
      { h with
        busy := by
          intro q rd hrd
          by_cases hq : q = p
          · rw [hq, hp] at hrd
            obtain rfl := Option.some.inj hrd
            exact ⟨Nat.lt_succ_self _, rfl, h.fresh, List.not_mem_nil, List.not_mem_nil⟩
          · exact (hothers q rd hq hrd).2
        distinct := hdistinct
        past := fun res hres => ⟨Nat.lt_succ_of_lt (h.past res hres).1, hpast res hres⟩
        owned := by
          intro t ht
          refine (h.owned t ht).imp_right ?_
          rintro ⟨q, rd, hrd, hid⟩
          have hne : q ≠ p := by
            rintro rfl
            rw [St.reader, hout] at hrd
            cases hrd
          exact ⟨q, rd, (hq q hne).trans hrd, hid⟩ }
  next => cases hs

end

section leaving

/-- The loop of a reader `rd` of process `p` is done; what it took is recorded. -/
structure Left (s s' : St) (p : Nat) (rd : Reader) (Q : List UInt8) (o : Outcome) (xs rest : List UInt8) : Prop where
  at_p : s.reader p = some rd
  taking : Taking rd.target rd.left rd.got Q o xs rest
  calls : s'.calls = s.calls
  taken : s'.taken = s.taken ++ (xs ++ if o.why = .eof then [ctrl 'D'] else []).map (rd.id, ·)

variable {o : Outcome} {xs rest : List UInt8}

section

variable (hl : Left s s' p rd Q o xs rest)

include hl

theorem Left.share_self (h : Inv s Q L) :
    share s'.taken rd.id = o.got ++ if o.why = .eof then [ctrl 'D'] else [] := by
  rw [hl.taken, share_append, share_own, (h.busy p rd hl.at_p).own, hl.taking.got, List.append_assoc]

theorem Left.share_other (hi : rd.id ≠ i) : share s'.taken i = share s.taken i := by
  rw [hl.taken, share_append, Console.share_other hi, List.append_nil]

/-- What has left the buffer and what waits in it make up the same stream. -/
theorem Left.stream : s'.taken.map Prod.snd ++ rest = s.taken.map Prod.snd ++ Q := by
  have hmap : ∀ l : List UInt8, (l.map (rd.id, ·)).map Prod.snd = l := by
    intro l
    rw [List.map_map]
    exact List.map_id l
  rw [hl.taken, List.map_append, hmap, List.append_assoc, ← hl.taking.queue]

/-- The characters taken belong to the same calls as before, or to `rd`. -/
theorem Left.mem_taken (ht : t ∈ s'.taken) : t ∈ s.taken ∨ t.1 = rd.id := by
  rw [hl.taken] at ht
  rcases List.mem_append.mp ht with ht | ht
  · exact .inl ht
  · obtain ⟨x, -, rfl⟩ := List.mem_map.mp ht
    exact .inr rfl

section

variable (h : Inv s Q L)
include h

theorem Left.others (hpc : s'.pc = update s.pc p x) :
    ∀ q rd', q ≠ p → s'.reader q = some rd' → s.reader q = some rd' ∧ Busy s' rd' := by
  refine h.others hpc hl.calls.ge fun q rd' hq hrd => hl.share_other fun heq => hq ?_
  exact (h.distinct p q rd rd' hl.at_p hrd heq).symm

/-- The calls that had ended took none of it. -/
theorem Left.ended :
    ∀ res ∈ s.results, Ended (s'.taken.map Prod.snd ++ rest) res (share s'.taken res.id) := by
  intro res hres
  rw [hl.stream, hl.share_other ((h.past res hres).2 p rd hl.at_p)]
  exact h.ended res hres

/-- What was taken belongs to `rd`, or to a call that stays. -/
theorem Left.owner (hpc : s'.pc = update s.pc p x) (ht : t ∈ s'.taken) :
    t.1 = rd.id ∨ (∃ res ∈ s.results, res.id = t.1) ∨ ∃ q rd', s'.reader q = some rd' ∧ rd'.id = t.1 := by
  rcases hl.mem_taken ht with ht | ht
  · rcases h.owned t ht with hres | ⟨q, rd', hrd, hid⟩
    · exact .inr (.inl hres)
    · by_cases hqp : q = p
      · obtain rfl := Option.some.inj (hl.at_p.symm.trans (hqp ▸ hrd))
        exact .inl hid.symm
      · exact .inr (.inr ⟨q, rd', ((reader_move hpc).2 q hqp).trans hrd, hid⟩)
  · exact .inl ht

/-- The reader waits for more input. -/
theorem Inv.sleep (hwhy : o.why = .empty) (hpc : s'.pc = update s.pc p (.asleep { rd with left := o.left, got := o.got }))
    (hresults : s'.results = s.results) (hkeys : s'.keys = s.keys) (hholds : Holds s'.cons rest L) : Inv s' rest L := by
  obtain ⟨hp, -⟩ := reader_move hpc
  have hothers := hl.others h hpc
  have hb := h.busy p rd hl.at_p
  have ht := hl.taking
  have hself : ∀ rd', s'.reader p = some rd' → rd' = { rd with left := o.left, got := o.got } := fun rd' hrd =>
    (Option.some.inj (hp.symm.trans hrd)).symm
  -- the call's number has not changed
  obtain ⟨hdistinct, hpast⟩ := h.numbers s' p fun q rd' hrd => by
    by_cases hqp : q = p
    · rw [hself rd' (hqp ▸ hrd), hqp]
      exact .inl ⟨rd, hl.at_p, rfl⟩
    · exact .inl ⟨rd', (hothers q rd' hqp hrd).1, rfl⟩
  exact
    { holds := hholds
      stream := by rw [hkeys, h.stream, hl.stream]
      busy := by
        intro q rd' hrd
        by_cases hqp : q = p
        · obtain rfl := hself rd' (hqp ▸ hrd)
          have hown := hl.share_self h
          have hnl := ht.newline
          rw [hwhy] at hown hnl
          refine ⟨hl.calls ▸ hb.id, ?_, by simpa using hown, ?_, ?_⟩
          · have hleft := ht.left
            have hold := hb.left
            simp only [ht.got, List.length_append]
            omega
          · simp only [ht.got, List.mem_append, not_or]
            exact ⟨hb.noD, ht.noD⟩
          · simp only [ht.got, List.mem_append, not_or]
            exact ⟨hb.noNewline, by simpa using hnl⟩
        · exact (hothers q rd' hqp hrd).2
      distinct := hdistinct
      ended := by
        rw [hresults]
        exact hl.ended h
      past := by
        rw [hresults, hl.calls]
        exact fun res hres => ⟨(h.past res hres).1, hpast res hres⟩
      once := by
        rw [hresults]
        exact h.once
      owned := by
        intro t ht
        rw [hresults]
        rcases hl.owner h hpc ht with hid | hown
        · exact .inr ⟨p, _, hp, hid.symm⟩
        · exact hown }

theorem Left.result : Ended (s'.taken.map Prod.snd ++ rest)
      ⟨rd.id, rd.target, o.got, if o.why = .empty then -1 else rd.target - o.left, o.why, s'.taken.length⟩
      (share s'.taken rd.id) := by
  have hb := h.busy p rd hl.at_p
  have ht := hl.taking
  have hcount : o.left + o.got.length = rd.target := by
    have hleft := ht.left
    have hold := hb.left
    rw [ht.got, List.length_append]
    omega
  exact
    { own := hl.share_self h
      ret := by
        simp only
        split
        · rfl
        · omega
      noD := by
        simp only [ht.got, List.mem_append, not_or]
        exact ⟨hb.noD, ht.noD⟩
      newline := by
        have hnl := ht.newline
        simp only [ht.got]
        split at hnl
        next hwhy =>
          obtain ⟨ys, hys, hmem⟩ := hnl
          rw [if_pos hwhy, hys]
          refine ⟨rd.got ++ ys, (List.append_assoc _ _ _).symm, ?_⟩
          simp only [List.mem_append, not_or]
          exact ⟨hb.noNewline, hmem⟩
        next hwhy =>
          rw [if_neg hwhy]
          simp only [List.mem_append, not_or]
          exact ⟨hb.noNewline, hnl⟩
      le := by
        simp only
        omega
      full := by
        intro hwhy
        have := ht.full hwhy
        simp only
        omega
      eof := by
        intro hwhy
        obtain ⟨hge, hpos⟩ := ht.eof hwhy
        refine ⟨List.length_eq_zero_iff.mp (?_ : o.got.length = 0), ?_⟩
        · omega
        · simp only
          omega
      kept := by
        intro hwhy
        obtain ⟨hpos, hlt, hhead⟩ := ht.kept hwhy
        refine ⟨fun hnil => ?_, ?_, ?_⟩
        · have : o.got.length = 0 := List.length_eq_zero_iff.mpr hnil
          omega
        · simp only
          omega
        · simp only
          rw [List.getElem?_append_right (by simp), List.length_map, Nat.sub_self, ← List.head?_eq_getElem?, hhead]
      empty := by
        intro hwhy
        have := (ht.empty hwhy).1
        simp only
        omega }

/-- The call returns. -/
theorem Inv.finish (hpc : s'.pc = update s.pc p .out) (hresults : s'.results =
      s.results ++ [⟨rd.id, rd.target, o.got, if o.why = .empty then -1 else rd.target - o.left, o.why, s'.taken.length⟩])
    (hkeys : s'.keys = s.keys) (hholds : Holds s'.cons rest L) : Inv s' rest L := by
  obtain ⟨hp, -⟩ := reader_move hpc
  have hothers := hl.others h hpc
  -- the process that returned has no call any more
  have hne : ∀ q rd', s'.reader q = some rd' → q ≠ p := by
    rintro q rd' hrd rfl
    rw [hp] at hrd
    cases hrd
  exact
    { holds := hholds
      stream := by rw [hkeys, h.stream, hl.stream]
      busy := fun q rd' hrd => (hothers q rd' (hne q rd' hrd) hrd).2
      distinct := fun q q' rd1 rd2 h1 h2 =>
        h.distinct q q' rd1 rd2 (hothers q rd1 (hne q rd1 h1) h1).1 (hothers q' rd2 (hne q' rd2 h2) h2).1
      ended := by
        rw [hresults]
        intro res hres
        rcases List.mem_append.mp hres with hres | hres
        · exact hl.ended h res hres
        · rw [List.mem_singleton.mp hres]
          exact hl.result h
      past := by
        rw [hresults, hl.calls]
        intro res hres
        have hold : ∀ q rd', s'.reader q = some rd' → s.reader q = some rd' := fun q rd' hrd =>
          (hothers q rd' (hne q rd' hrd) hrd).1
        rcases List.mem_append.mp hres with hres | hres
        · exact ⟨(h.past res hres).1, fun q rd' hrd => (h.past res hres).2 q rd' (hold q rd' hrd)⟩
        · rw [List.mem_singleton.mp hres]
          refine ⟨(h.busy p rd hl.at_p).id, fun q rd' hrd heq => hne q rd' hrd ?_⟩
          exact h.distinct q p rd' rd (hold q rd' hrd) hl.at_p heq
      once := by
        rw [hresults, List.map_append, List.map_singleton, (List.perm_append_singleton _ _).nodup_iff, List.nodup_cons]
        refine ⟨fun hmem => ?_, h.once⟩
        obtain ⟨res, hres, hid⟩ := List.mem_map.mp hmem
        exact (h.past res hres).2 p rd hl.at_p hid.symm
      owned := by
        intro t ht
        rw [hresults]
        rcases hl.owner h hpc ht with hid | ⟨res, hres, hid⟩ | hrd
        · exact .inl ⟨_, List.mem_append_right _ List.mem_cons_self, hid.symm⟩
        · exact .inl ⟨res, List.mem_append_left _ hres, hid⟩
        · exact .inr hrd }

end

end

end leaving

theorem Inv.run (h : Inv s Q L) (hs : act s (.run p) = some s') : ∃ rest, Inv s' rest L := by
  rw [act] at hs
  split at hs
  next rd hready =>
    obtain rfl := Option.some.inj hs
    have hp : s.reader p = some rd := by rw [St.reader, hready, Pc.reader]
    obtain ⟨xs, rest, ht, hholds⟩ := h.holds.readLoop rd.target rd.left rd.got
    generalize readLoop rd.target rd.left s.cons rd.got = o at ht hholds
    have hconsumed : o.consumed rd.got = xs ++ if o.why = .eof then [ctrl 'D'] else [] := by
      rw [Outcome.consumed, ht.got, List.drop_left]
    refine ⟨rest, ?_⟩
    rw [leave]
    simp only [hconsumed]
    split
    next hsleep => exact h.sleep ⟨hp, ht, rfl, rfl⟩ hsleep.1 rfl rfl rfl hholds
    next => exact h.finish (o := o) ⟨hp, ht, rfl, rfl⟩ rfl rfl rfl hholds
  next => cases hs

theorem inv_initial : Inv initial [] [] where
  holds := ⟨by decide, rfl, rfl, .nil, by simp, fun _ => rfl⟩
  stream := rfl
  busy _ _ h := nomatch h
  distinct _ _ _ _ h := nomatch h
  ended := by simp [initial]
  past := by simp [initial]
  once := List.nodup_nil
  owned := by simp [initial]

theorem reached_inv (hr : Reached s) : ∃ Q L, Inv s Q L := by
  refine hr.inv (I := fun s => ∃ Q L, Inv s Q L) ⟨[], [], inv_initial⟩ ?_
  · rintro s a s' ⟨Q, L, h⟩ - hs
    cases a with
    | type ch =>
      obtain ⟨Q', L', h'⟩ := h.type ch hs
      exact ⟨_, _, h'⟩
    | read p n => exact ⟨Q, L, h.read hs⟩
    | run p =>
      obtain ⟨rest, h'⟩ := h.run hs
      exact ⟨rest, L, h'⟩
    | kill p => exact ⟨Q, L, h.kill hs⟩

/-! ## The discipline -/

/-- A call that took a control-D took nothing else, and returned 0. -/
theorem Inv.eof_alone (h : Inv s Q L) (ht : t ∈ s.taken) (hD : t.2 = ctrl 'D') :
    ∃ res ∈ s.results, res.id = t.1 ∧ res.ret = 0 ∧ 0 < res.n ∧ share s.taken t.1 = [ctrl 'D'] := by
  have hmem : ctrl 'D' ∈ share s.taken t.1 := hD ▸ mem_share ht
  rcases h.owned t ht with ⟨res, hres, hid⟩ | ⟨p, rd, hrd, hid⟩
  · have he := h.ended res hres
    have hown := he.own
    rw [hid] at hown
    rw [hown] at hmem
    have hwhy : res.why = .eof := by
      by_contra hne
      rw [if_neg hne, List.append_nil] at hmem
      exact he.noD hmem
    obtain ⟨hgot, hn⟩ := he.eof hwhy
    refine ⟨res, hres, hid, ?_, hn, ?_⟩
    · rw [he.ret, hwhy, hgot]
      rfl
    · rw [hown, hwhy, hgot]
      rfl
  · have hb := h.busy p rd hrd
    rw [← hid, hb.own] at hmem
    exact absurd hmem hb.noD

/-- A read of length 0 took a control-D, unless it asked for nothing. -/
theorem Inv.zero_read (h : Inv s Q L) (hres : res ∈ s.results) (hret : res.ret = 0) (hn : 0 < res.n) :
    share s.taken res.id = [ctrl 'D'] := by
  have he := h.ended res hres
  have hlen := he.ret
  rw [hret] at hlen
  have hwhy : res.why ≠ .empty := by
    intro hwhy
    rw [if_pos hwhy] at hlen
    cases hlen
  rw [if_neg hwhy] at hlen
  have hgot : res.got = [] := List.length_eq_zero_iff.mp (by omega)
  have heof : res.why = .eof := by
    cases hw : res.why with
    | eof => rfl
    | empty => exact absurd hw hwhy
    | full =>
      have := he.full hw
      rw [hgot, List.length_nil] at this
      omega
    | newline =>
      have hnl := he.newline
      rw [if_pos hw, hgot] at hnl
      obtain ⟨ys, hys, -⟩ := hnl
      simp at hys
    | kept => exact absurd hgot (he.kept hw).1
  rw [he.own, heof, hgot]
  rfl

/-- What the console does with its input. -/
structure Discipline (s : St) : Prop where
  order : minus s.cons.w s.cons.r ≤ minus s.cons.e s.cons.r ∧ minus s.cons.e s.cons.r ≤ inputBufSize
  /-- A full buffer is committed. -/
  full : minus s.cons.e s.cons.r = inputBufSize → s.cons.w = s.cons.e
  /-- Typing does not change what is committed. -/
  typing : ∀ ch s', act s (.type ch) = some s' → s'.cons.r = s.cons.r ∧
    s'.cons.span s.cons.r (minus s.cons.w s.cons.r) = s.cons.span s.cons.r (minus s.cons.w s.cons.r)
  /-- The edited input is what has left the buffer, what waits in it, and the current line. -/
  stream : s.keys.foldl edit ([], []) =
    (s.taken.map Prod.snd ++ s.cons.span s.cons.r (minus s.cons.w s.cons.r), s.cons.span s.cons.w (minus s.cons.e s.cons.w))
  /-- What has left the buffer was taken by calls, under way or done. -/
  owned : ∀ t ∈ s.taken, (∃ res ∈ s.results, res.id = t.1) ∨ ∃ p rd, s.reader p = some rd ∧ rd.id = t.1
  busy : ∀ p rd, s.reader p = some rd → Busy s rd
  ended : ∀ res ∈ s.results, Ended (s.keys.foldl edit ([], [])).1 res (share s.taken res.id)
  once : (s.results.map Result.id).Nodup
  eof : ∀ t ∈ s.taken, t.2 = ctrl 'D' →
    ∃ res ∈ s.results, res.id = t.1 ∧ res.ret = 0 ∧ 0 < res.n ∧ share s.taken t.1 = [ctrl 'D']
  zero : ∀ res ∈ s.results, res.ret = 0 → 0 < res.n → share s.taken res.id = [ctrl 'D']

theorem Holds.typing (h : Holds s.cons Q L) {ch : UInt8} (hs : act s (.type ch) = some s') : s'.cons.r = s.cons.r ∧
      s'.cons.span s.cons.r (minus s.cons.w s.cons.r) = s.cons.span s.cons.r (minus s.cons.w s.cons.r) := by
  have hcons : s'.cons = (Console.consoleintr s.cons ch).1 := by rw [← Option.some.inj hs]
  obtain ⟨hr, h'⟩ := h.consoleintr ch
  rw [← hcons] at hr h'
  have hwin : Window inputBufSize s'.cons.buf s.cons.r Q := hr ▸ h'.window.of_append.of_append
  have hQ : s'.cons.span s.cons.r Q.length = Q := hwin.eq_map.symm
  rw [h.committed, hQ, ← h.committed, ← h.spans.1]
  exact ⟨hr, rfl⟩

theorem console_discipline (s : St) (hr : Reached s) : Discipline s := by
  obtain ⟨Q, L, h⟩ := reached_inv hr
  have hQ := h.holds.spans.1
  have hL := h.holds.spans.2
  exact
    { order := by
        have hle := h.holds.length_le
        rw [h.holds.committed, h.holds.used]
        exact ⟨Nat.le_add_right _ _, hle⟩
      full := by
        intro hfull
        rw [h.holds.used, ← List.length_append] at hfull
        exact (h.holds.e_eq_w.mpr (h.holds.full hfull)).symm
      typing := fun ch s' hs => h.holds.typing hs
      stream := by rw [h.stream, ← hQ, ← hL]
      owned := h.owned
      busy := h.busy
      ended := by
        rw [h.stream]
        exact h.ended
      once := h.once
      eof := fun t ht hD => h.eof_alone ht hD
      zero := fun res hres hret hn => h.zero_read hres hret hn }

/-- A line is typed with a correction, then a control-D; two reads get the line and the end. -/
theorem console_discipline_demo : ∃ s, Reached s ∧ s.results.map Result.ret = [3, 0] ∧ Discipline s := by
  have hrun : ((Lib.run act initial ([104, 120, 8, 105, 13, 4].map Act.type ++
      [.read 0 10, .run 0, .read 0 10, .run 0])).map fun s => s.results.map Result.ret) = some [3, 0] := by
    decide +kernel
  obtain ⟨s, hs, hret⟩ := Option.map_eq_some_iff.mp hrun
  have hr : Reached s := Lib.reach_of_run (fun _ _ _ => trivial) hs
  exact ⟨s, hr, hret, console_discipline s hr⟩

end Xv6.Console
