import KeyForest.Proofs.Batch
import KeyForest.Proofs.Issuers

/-!
# The order with issuers first

A climb goes up from a row along the issuers until it meets a row that is in the order already, or
itself. Only when it meets itself is there a row that does not come after its issuer, the topmost
one of the climb, and then the rows from the issuer on are a cycle (`Led.append`). Later climbs
never come back to it, because the issuers of all rows in the order are in the order, so that each
cycle has one such row (`issuersFirst_leads`).
-/
namespace KeyForest.Bucket

open Relation

/-- Whether `a` comes before `b` in a list. -/
def Precedes {α : Type} (order : List α) (a b : α) : Prop := [a, b].Sublist order

section Precedes

variable {α : Type} {front back order : List α} {a b : α}

theorem precedes_of_mem (ha : a ∈ front) (hb : b ∈ back) : Precedes (front ++ back) a b :=
  (List.singleton_sublist.mpr ha).append (List.singleton_sublist.mpr hb)

theorem Precedes.mono (h : Precedes front a b) (hsub : front.Sublist order) :
    Precedes order a b := List.Sublist.trans h hsub

theorem Precedes.idxOf_lt [BEq α] [LawfulBEq α] (h : Precedes order a b) (hnodup : order.Nodup) :
    order.idxOf a < order.idxOf b := by
  induction order with
  | nil => simp [Precedes] at h
  | cons c order ih =>
    obtain ⟨hfresh, hnodup⟩ := List.nodup_cons.mp hnodup
    rcases List.sublist_cons_iff.mp h with h | ⟨rest, heq, hrest⟩
    · have hne {x : α} (hx : x ∈ [a, b]) : c ≠ x := fun heq => hfresh (heq ▸ h.subset hx)
      rw [List.idxOf_cons_ne _ (hne (by simp)), List.idxOf_cons_ne _ (hne (by simp))]
      exact Nat.succ_lt_succ (ih h hnodup)
    · obtain ⟨rfl, rfl⟩ := List.cons.inj heq
      have hb : a ≠ b := fun heq => hfresh (heq ▸ List.singleton_sublist.mp hrest)
      rw [List.idxOf_cons_self, List.idxOf_cons_ne _ hb]
      exact Nat.succ_pos _

theorem precedes_filterMap {β : Type} {f : α → Option β} {x y : β} :
    Precedes (order.filterMap f) x y ↔ ∃ a b, Precedes order a b ∧ f a = some x ∧ f b = some y := by
  constructor
  · intro h
    obtain ⟨rest, hrest, heq⟩ := List.sublist_filterMap_iff.mp h
    obtain ⟨front, a, back, rfl, -, hx, hback⟩ := List.filterMap_eq_cons_iff.mp heq.symm
    obtain ⟨b, hb, hy⟩ := List.mem_filterMap.mp (hback ▸ List.mem_singleton_self y)
    have hprecedes : Precedes (a :: back) a b := precedes_of_mem (List.mem_singleton_self a) hb
    exact ⟨a, b, (hprecedes.mono (List.sublist_append_right _ _)).mono hrest, hx, hy⟩
  · rintro ⟨a, b, h, hx, hy⟩
    have hsub := List.Sublist.filterMap f h
    rwa [List.filterMap_cons_some hx, List.filterMap_cons_some hy] at hsub

end Precedes

/-! ### Climbs -/

/-- Whether row `p` holds the issuer of the key at a row. -/
def IssuesRow (keys : List Key) (p row : ℕ) : Prop := issuerRow? keys row = some p

/-- Whether the issuer of a row is in the list and does not come before it. -/
def Late (keys : List Key) (order : List ℕ) (row : ℕ) : Prop :=
  ∃ p, IssuesRow keys p row ∧ ¬ Precedes order p row

variable {keys : List Key} {seen path order : List ℕ} {p q row top : ℕ}

/-- Among rows that hold their issuers is everybody above one of them. -/
theorem mem_of_above (hclosed : ∀ row ∈ path, ∀ p, IssuesRow keys p row → p ∈ path)
    (habove : ReflTransGen (IssuesRow keys) q row) (hrow : row ∈ path) : q ∈ path := by
  induction habove using ReflTransGen.head_induction_on with
  | refl => exact hrow
  | head hissues _ ih => exact hclosed _ ih _ hissues

/-- How a climb ends: each of its rows is the issuer of the next one, and the issuer of the first
was seen before or is in the climb. -/
structure Climbed (keys : List Key) (seen path : List ℕ) : Prop where
  chain : path.IsChain (IssuesRow keys)
  stops : ∀ top ∈ path.head?, ∀ p, IssuesRow keys p top → p ∈ seen ∨ p ∈ path

/-- A path that is as long as the list holds all its rows. -/
theorem Path.mem_of_length_le (h : Path keys seen path) (hlength : keys.length ≤ path.length)
    (hrow : row < keys.length) : row ∈ path := by
  have hsub : path ⊆ List.range keys.length :=
    fun row hrow => List.mem_range.mpr (h.bounded row hrow)
  have hperm := (h.nodup.subperm hsub).perm_of_length_le (by simpa using hlength)
  exact hperm.mem_iff.mpr (List.mem_range.mpr hrow)

theorem climbed_climb {steps : ℕ} {next : Option ℕ} (hpath : Path keys seen path)
    (hchain : path.IsChain (IssuesRow keys)) (hnext : ∀ row ∈ next, row < keys.length)
    (htop : ∀ top ∈ path.head?, next = issuerRow? keys top)
    (hsteps : keys.length ≤ steps + path.length) :
    Climbed keys seen (climb keys seen steps next path) := by
  induction steps generalizing next path with
  | zero =>
    refine ⟨hchain, fun top _ p hp => .inr ?_⟩
    exact hpath.mem_of_length_le (by omega) (issuerRow?_lt hp)
  | succ steps ih =>
    cases next with
    | none =>
      refine ⟨hchain, fun top htop' p hp => ?_⟩
      rw [IssuesRow, ← htop top htop'] at hp
      contradiction
    | some row =>
      rw [climb]
      split
      · rename_i hmet
        refine ⟨hchain, fun top htop' p hp => ?_⟩
        rw [IssuesRow, ← htop top htop'] at hp
        cases hp
        simpa using hmet
      · rename_i hnew
        simp only [Bool.or_eq_true, List.contains_iff_mem, not_or] at hnew
        refine ih ⟨List.nodup_cons.mpr ⟨hnew.2, hpath.nodup⟩,
          List.forall_mem_cons.mpr ⟨hnew.1, hpath.fresh⟩,
          List.forall_mem_cons.mpr ⟨hnext row rfl, hpath.bounded⟩⟩ ?_
          (fun issuer hissuer => issuerRow?_lt hissuer) (by simp) (by simp; omega)
        cases path with
        | nil => exact .singleton row
        | cons top path => exact .cons_cons (htop top rfl).symm hchain

theorem climbed_of_start {start : ℕ} (hstart : start < keys.length) :
    Climbed keys seen (climb keys seen keys.length (some start) []) :=
  climbed_climb ⟨List.nodup_nil, by simp, by simp⟩ .nil (by simpa using hstart) (by simp) (by simp)

/-- In a climb all rows but the topmost come after their issuers. -/
theorem head_or_precedes (hchain : path.IsChain (IssuesRow keys)) (hrow : row ∈ path) :
    row ∈ path.head? ∨ ∃ p, IssuesRow keys p row ∧ Precedes path p row := by
  induction path with
  | nil => simp at hrow
  | cons top path ih =>
    rcases List.mem_cons.mp hrow with rfl | hrow
    · exact .inl rfl
    · right
      rcases ih hchain.tail hrow with hhead | ⟨p, hissues, hprecedes⟩
      · refine ⟨top, List.IsChain.rel_head? hchain hhead, ?_⟩
        exact List.Sublist.cons_cons _ (List.singleton_sublist.mpr hrow)
      · exact ⟨p, hissues, hprecedes.mono (List.sublist_cons_self _ _)⟩

/-- The topmost row of a climb is above all of them. -/
theorem above_of_head (hchain : path.IsChain (IssuesRow keys)) (htop : top ∈ path.head?)
    (hrow : row ∈ path) : ReflTransGen (IssuesRow keys) top row := by
  induction path generalizing top with
  | nil => simp at hrow
  | cons first path ih =>
    cases htop
    rcases List.mem_cons.mp hrow with rfl | hrow
    · exact .refl
    · obtain ⟨next, hnext⟩ := Option.isSome_iff_exists.mp
        (List.isSome_head?.mpr (List.ne_nil_of_mem hrow))
      exact .head (List.IsChain.rel_head? hchain hnext) (ih hchain.tail hnext hrow)

/-! ### Rows that come before their issuers -/

/-- What is known of the rows ordered so far. With a row its issuer is in the order, and rows that
do not come after their issuers are on cycles, on each cycle one. -/
structure Led (keys : List Key) (order : List ℕ) : Prop where
  closed : ∀ row ∈ order, ∀ p, IssuesRow keys p row → p ∈ order
  onCycle : ∀ row ∈ order, Late keys order row → TransGen (IssuesRow keys) row row
  unique : ∀ row ∈ order, ∀ other ∈ order, Late keys order row → Late keys order other →
    ReflTransGen (IssuesRow keys) other row → row = other

theorem IssuesRow.unique (hp : IssuesRow keys p row) (hq : IssuesRow keys q row) : p = q :=
  Option.some.inj (hp.symm.trans hq)

/-- A row that does not come after its issuer once a climb is appended was so before, or it is the
topmost of the climb and has met itself. -/
theorem late_append (hclimbed : Climbed keys order path) (hrow : row ∈ order ++ path)
    (hlate : Late keys (order ++ path) row) :
    (row ∈ order ∧ Late keys order row) ∨
      row ∈ path.head? ∧ ∃ p ∈ path, IssuesRow keys p row := by
  obtain ⟨p, hissues, hnot⟩ := hlate
  rcases List.mem_append.mp hrow with hold | hnew
  · refine .inl ⟨hold, p, hissues, fun hprecedes => hnot ?_⟩
    exact hprecedes.mono (List.sublist_append_left _ _)
  · rcases head_or_precedes hclimbed.chain hnew with hhead | ⟨q, hq, hprecedes⟩
    · have hmet := hclimbed.stops row hhead p hissues
      exact .inr ⟨hhead, p,
        hmet.resolve_left fun hseen => hnot (precedes_of_mem hseen hnew), hissues⟩
    · obtain rfl := hissues.unique hq
      exact absurd (hprecedes.mono (List.sublist_append_right _ _)) hnot

theorem Led.append (h : Led keys order) (hpath : Path keys order path)
    (hclimbed : Climbed keys order path) : Led keys (order ++ path) := by
  have honCycle {row : ℕ} (hrow : row ∈ order ++ path) (hlate : Late keys (order ++ path) row) :
      TransGen (IssuesRow keys) row row := by
    rcases late_append hclimbed hrow hlate with ⟨hold, hlate⟩ | ⟨hhead, p, hp, hissues⟩
    · exact h.onCycle row hold hlate
    · exact .tail' (above_of_head hclimbed.chain hhead hp) hissues
  refine ⟨fun row hrow p hissues => ?_, fun row => honCycle, ?_⟩
  · rw [List.mem_append]
    rcases List.mem_append.mp hrow with hold | hnew
    · exact .inl (h.closed row hold p hissues)
    · rcases head_or_precedes hclimbed.chain hnew with hhead | ⟨q, hq, hprecedes⟩
      · exact hclimbed.stops row hhead p hissues
      · obtain rfl := hissues.unique hq
        exact .inr (hprecedes.subset List.mem_cons_self)
  · intro row hrow other hother hlate hlate' habove
    have hbelow : ReflTransGen (IssuesRow keys) row other :=
      returns_of_unique (fun _ _ _ => IssuesRow.unique) (honCycle hrow hlate) habove
    -- A cycle that is reached from the old rows is among them, so both rows are old or both new.
    rcases late_append hclimbed hrow hlate with ⟨hold, hlate⟩ | ⟨hhead, -⟩ <;>
      rcases late_append hclimbed hother hlate' with ⟨hold', hlate'⟩ | ⟨hhead', -⟩
    · exact h.unique row hold other hold' hlate hlate' habove
    · have hnew := hpath.fresh other (List.mem_of_mem_head? hhead')
      exact absurd (mem_of_above h.closed habove hold) hnew
    · have hnew := hpath.fresh row (List.mem_of_mem_head? hhead)
      exact absurd (mem_of_above h.closed hbelow hold') hnew
    · exact Option.mem_unique hhead hhead'

theorem led_issuerOrder (keys : List Key) : Led keys (issuerOrder keys) :=
  issuerOrder_induction (P := fun _ => Led keys) ⟨by simp, by simp, by simp⟩
    fun _ _ hstart h => h.append (path_of_start hstart) (climbed_of_start hstart)

/-! ### Rows that are nobody's issuers -/

/-- In a climb every row but the last is an issuer. -/
theorem exists_issued {extra : List ℕ} {start : ℕ}
    (hchain : (extra ++ [start]).IsChain (IssuesRow keys)) (hrow : row ∈ extra) :
    ∃ issued, IssuesRow keys row issued := by
  induction extra with
  | nil => simp at hrow
  | cons first extra ih =>
    rcases List.mem_cons.mp hrow with rfl | hrow
    · have hne : extra ++ [start] ≠ [] := by simp
      obtain ⟨next, hnext⟩ := Option.isSome_iff_exists.mp (List.isSome_head?.mpr hne)
      exact ⟨next, List.IsChain.rel_head? hchain hnext⟩
    · exact ih hchain.tail hrow

/-- A climb from a row that has been seen collects nothing. -/
theorem climb_seen {steps start : ℕ} (hseen : start ∈ seen) :
    climb keys seen steps (some start) [] = [] := by
  cases steps with
  | zero => rfl
  | succ steps => rw [climb, if_pos (by simp [hseen])]

/-- Rows that are nobody's issuers stay in their order. -/
theorem filter_issuerOrder (leaf : ℕ → Bool)
    (hleaf : ∀ p row, IssuesRow keys p row → leaf p = false) :
    (issuerOrder keys).filter leaf = (List.range keys.length).filter leaf := by
  refine issuerOrder_induction (P := fun n order => order.filter leaf = (List.range n).filter leaf)
    rfl fun start order hstart ih => ?_
  rw [List.filter_append, ih, List.range_succ, List.filter_append, List.append_cancel_left_eq]
  by_cases hseen : start ∈ order
  · have hissuer : leaf start = false := by
      by_contra htrue
      rw [Bool.not_eq_false] at htrue
      have hmem := ih ▸ List.mem_filter.mpr ⟨hseen, htrue⟩
      exact absurd (List.mem_range.mp (List.mem_of_mem_filter hmem)) (Nat.lt_irrefl start)
    simp [climb_seen hseen, hissuer]
  · obtain ⟨extra, hextra⟩ := suffix_climb_start hstart hseen
    have hclimbed : Climbed keys order (climb keys order keys.length (some start) []) :=
      climbed_of_start hstart
    have hchain := hclimbed.chain
    rw [← hextra] at hchain ⊢
    have hnone : extra.filter leaf = [] := by
      refine List.filter_eq_nil_iff.mpr fun row hrow => ?_
      obtain ⟨issued, hissued⟩ := exists_issued hchain hrow
      rw [hleaf row issued hissued]
      exact Bool.false_ne_true
    rw [List.filter_append, hnone, List.nil_append]

/-! ### Rows and keys -/

/-- Whether a certificate is listed at a row. -/
def IsRowOf (keys : List Key) (row : ℕ) (x : Ident) : Prop := (keys.map Key.ident)[row]? = some x

theorem isRowOf_iff {x : Ident} :
    IsRowOf keys row x ↔ ∃ key, keys[row]? = some key ∧ key.ident = x := by
  rw [IsRowOf, List.getElem?_map, Option.map_eq_some_iff]

theorem isRowOf_of_getElem? {key : Key} (h : keys[row]? = some key) :
    IsRowOf keys row key.ident := isRowOf_iff.mpr ⟨key, h, rfl⟩

theorem IsRowOf.row_unique {x : Ident} (hnodup : (keys.map Key.ident).Nodup)
    (hp : IsRowOf keys p x) (hq : IsRowOf keys q x) : p = q :=
  (List.getElem?_inj (List.getElem?_eq_some_iff.mp hp).1 hnodup).mp (hp.trans hq.symm)

theorem isRowOf_of_lastRowOf? {f : Fingerprint} (h : lastRowOf? keys f = some row) :
    IsRowOf keys row f.ident := by
  obtain ⟨⟨key, p⟩, hfind, rfl⟩ := Option.map_eq_some_iff.mp h
  have hkey : keys[p]? = some key :=
    List.mem_zipIdx_iff_getElem?.mp (List.mem_reverse.mp (List.mem_of_find?_eq_some hfind))
  have hident : key.ident = f.ident := by simpa using List.find?_some hfind
  exact hident ▸ isRowOf_of_getElem? hkey

theorem lastRowOf?_eq_some (hnodup : (keys.map Key.ident).Nodup) {f : Fingerprint} :
    lastRowOf? keys f = some row ↔ IsRowOf keys row f.ident := by
  refine ⟨isRowOf_of_lastRowOf?, fun hrow => ?_⟩
  obtain ⟨key, hkey, hident⟩ := isRowOf_iff.mp hrow
  obtain ⟨found, hfound⟩ : ∃ found, lastRowOf? keys f = some found := by
    rw [← Option.isSome_iff_exists, lastRowOf?, Option.isSome_map, List.find?_isSome]
    have hmem : (key, row) ∈ keys.zipIdx := List.mem_zipIdx_iff_getElem?.mpr hkey
    exact ⟨(key, row), List.mem_reverse.mpr hmem, Fingerprint.beq_iff.mpr hident⟩
  rw [hfound, hrow.row_unique hnodup (isRowOf_of_lastRowOf? hfound)]

theorem issuesRow_iff (hnodup : (keys.map Key.ident).Nodup) {key : Key} {x : Ident}
    (hkey : keys[row]? = some key) (hp : IsRowOf keys p x) :
    IssuesRow keys p row ↔ key.issuer = some x := by
  rw [IssuesRow, issuerRow?, hkey, Option.bind_some, Key.issuer, Option.bind_eq_some_iff,
    Option.map_eq_some_iff]
  refine exists_congr fun f => and_congr_right fun _ => ?_
  rw [lastRowOf?_eq_some hnodup]
  exact ⟨fun hf => Option.some.inj (hf.symm.trans hp), fun hf => hf ▸ hp⟩

theorem IssuesRow.issues {x y : Ident} (h : IssuesRow keys p row) (hp : IsRowOf keys p x)
    (hrow : IsRowOf keys row y) : Issues keys x y := by
  obtain ⟨f, hf, hlast⟩ := Option.bind_eq_some_iff.mp h
  obtain ⟨key, hkey, hclean⟩ := Option.bind_eq_some_iff.mp hf
  obtain rfl : f.ident = x := Option.some.inj ((isRowOf_of_lastRowOf? hlast).symm.trans hp)
  obtain rfl : key.ident = y := Option.some.inj ((isRowOf_of_getElem? hkey).symm.trans hrow)
  exact ⟨key, List.mem_of_getElem? hkey, rfl, Key.issuer_of_cleanIssuer hclean⟩

theorem transGen_issues {x y : Ident} (h : TransGen (IssuesRow keys) p row)
    (hp : IsRowOf keys p x) (hrow : IsRowOf keys row y) : TransGen (Issues keys) x y := by
  induction h generalizing y with
  | single h => exact .single (h.issues hp hrow)
  | @tail middle row _ h ih =>
    obtain ⟨f, -, hlast⟩ := Option.bind_eq_some_iff.mp h
    have hmiddle := isRowOf_of_lastRowOf? hlast
    exact .tail (ih hmiddle) (h.issues hmiddle hrow)

/-- Down from a certificate of the list the way along the issuers stays in the list. -/
theorem exists_row_below {x y : Ident} (hnodup : (keys.map Key.ident).Nodup)
    (hp : IsRowOf keys p x) (h : ReflTransGen (Issues keys) x y) :
    ∃ row, IsRowOf keys row y ∧ ReflTransGen (IssuesRow keys) p row := by
  induction h with
  | refl => exact ⟨p, hp, .refl⟩
  | tail _ h ih =>
    obtain ⟨middle, hmiddle, hreaches⟩ := ih
    obtain ⟨key, hkey, rfl, hissuer⟩ := h
    obtain ⟨row, hrow⟩ := List.mem_iff_getElem?.mp hkey
    exact ⟨row, isRowOf_of_getElem? hrow,
      hreaches.tail ((issuesRow_iff hnodup hrow hmiddle).mpr hissuer)⟩

/-! ### Keys that come before their issuers -/

/-- Whether a key comes after its issuer, if that is in the list. -/
def FollowsIssuer (keys order : List Key) (key : Key) : Prop :=
  ∀ issuer ∈ keys, key.issuer = some issuer.ident → Precedes order issuer key

theorem followsIssuer_iff (hnodup : (keys.map Key.ident).Nodup) {key : Key}
    (hrow : keys[row]? = some key) :
    FollowsIssuer keys (issuersFirst keys) key ↔ ¬ Late keys (issuerOrder keys) row := by
  have hprecedes {issuer : Key} {p : ℕ} (hp : keys[p]? = some issuer) :
      Precedes (issuersFirst keys) issuer key ↔ Precedes (issuerOrder keys) p row := by
    refine precedes_filterMap.trans ⟨?_, fun h => ⟨p, row, h, hp, hrow⟩⟩
    rintro ⟨a, b, h, ha, hb⟩
    rwa [(isRowOf_of_getElem? ha).row_unique hnodup (isRowOf_of_getElem? hp),
      (isRowOf_of_getElem? hb).row_unique hnodup (isRowOf_of_getElem? hrow)] at h
  rw [Late, not_exists]
  constructor
  · rintro h p ⟨hissues, hnot⟩
    obtain ⟨issuer, hp⟩ : ∃ issuer, keys[p]? = some issuer :=
      ⟨_, List.getElem?_eq_getElem (issuerRow?_lt hissues)⟩
    have hissuer := (issuesRow_iff hnodup hrow (isRowOf_of_getElem? hp)).mp hissues
    exact hnot ((hprecedes hp).mp (h issuer (List.mem_of_getElem? hp) hissuer))
  · intro h issuer hmem hissuer
    obtain ⟨p, hp⟩ := List.mem_iff_getElem?.mp hmem
    have hissues := (issuesRow_iff hnodup hrow (isRowOf_of_getElem? hp)).mpr hissuer
    exact (hprecedes hp).mpr (not_not.mp fun hnot => h p ⟨hissues, hnot⟩)

/-- A list of keys in which issuers come before the keys they issued, but for one on each cycle. -/
structure IssuersLead (keys order : List Key) : Prop where
  follows : ∀ key ∈ keys, ¬ OnCycle keys key.ident → FollowsIssuer keys order key
  once : ∀ x, OnCycle keys x → ∃ top ∈ keys, SameCycle keys x top.ident ∧
    ∀ key ∈ keys, SameCycle keys x key.ident → (FollowsIssuer keys order key ↔ key ≠ top)

theorem exists_not_follows {order : List Key} {x : Ident} (hnodup : (keys.map Key.ident).Nodup)
    (horder : (order.map Key.ident).Nodup) (hx : OnCycle keys x) :
    ∃ top ∈ keys, SameCycle keys x top.ident ∧ ¬ FollowsIssuer keys order top := by
  obtain ⟨p, y, hissues, hsame, hle⟩ := hx.exists_le hnodup ((order.map Key.ident).idxOf ·)
  obtain ⟨q, hq, issuer, hmem, rfl⟩ := hsame.exists_issuer
  obtain rfl := hissues.unique hnodup hq
  obtain ⟨key, hkey, rfl, hissuer⟩ := hissues
  refine ⟨key, hkey, hsame, fun hfollows => ?_⟩
  have hprecedes : Precedes (order.map Key.ident) issuer.ident key.ident :=
    List.Sublist.map Key.ident (hfollows issuer hmem hissuer)
  exact absurd (hprecedes.idxOf_lt horder) (Nat.not_lt.mpr hle)

theorem issuersLead_issuersFirst (hnodup : (keys.map Key.ident).Nodup) :
    IssuersLead keys (issuersFirst keys) := by
  have hled := led_issuerOrder keys
  have hrow {key : Key} (hkey : key ∈ keys) :
      ∃ row, keys[row]? = some key ∧ row ∈ issuerOrder keys := by
    obtain ⟨row, hrow⟩ := List.mem_iff_getElem?.mp hkey
    exact ⟨row, hrow,
      (ordered_issuerOrder keys).complete row (List.getElem?_eq_some_iff.mp hrow).1⟩
  constructor
  · intro key hkey hoff
    obtain ⟨row, hrow, hmem⟩ := hrow hkey
    refine (followsIssuer_iff hnodup hrow).mpr fun hlate => hoff ?_
    exact transGen_issues (hled.onCycle row hmem hlate) (isRowOf_of_getElem? hrow)
      (isRowOf_of_getElem? hrow)
  · intro x hx
    have horder := ((issuersFirst_perm keys).map Key.ident).nodup_iff.mpr hnodup
    obtain ⟨top, htop, hsame, hnot⟩ := exists_not_follows hnodup horder hx
    refine ⟨top, htop, hsame, fun key hkey hsame' => ⟨?_, fun hne => ?_⟩⟩
    · rintro hfollows rfl
      exact hnot hfollows
    · by_contra hnot'
      obtain ⟨row, hrow₁, hmem⟩ := hrow htop
      obtain ⟨other, hrow₂, hmem'⟩ := hrow hkey
      rw [followsIssuer_iff hnodup hrow₁, not_not] at hnot
      rw [followsIssuer_iff hnodup hrow₂, not_not] at hnot'
      obtain ⟨below, hbelow, hreaches⟩ := exists_row_below hnodup (isRowOf_of_getElem? hrow₂)
        (hsame'.symm.trans hsame).1.to_reflTransGen
      obtain rfl := hbelow.row_unique hnodup (isRowOf_of_getElem? hrow₁)
      obtain rfl := hled.unique below hmem other hmem' hnot hnot' hreaches
      exact hne (Option.some.inj (hrow₂.symm.trans hrow₁))

/-- Whether no key of the list names a key as its issuer. -/
def unnamed (keys : List Key) (key : Key) : Bool :=
  keys.all fun other => other.issuer != some key.ident

/-- A list that holds what is at each position of another list once, in which the keys that nobody
names as issuer are in the order they had. -/
structure Reorders (keys order : List Key) : Prop where
  positions : ∃ rows : List ℕ, rows.Perm (List.range keys.length) ∧
    order.map some = rows.map (keys[·]?)
  kept : order.filter (unnamed keys) = keys.filter (unnamed keys)

theorem filter_issuersFirst (keys : List Key) :
    (issuersFirst keys).filter (unnamed keys) = keys.filter (unnamed keys) := by
  have hleaf : ∀ p row, IssuesRow keys p row → (keys[p]?.any (unnamed keys)) = false := by
    intro p row hissues
    obtain ⟨f, hf, hlast⟩ := Option.bind_eq_some_iff.mp hissues
    obtain ⟨key, hkey, hclean⟩ := Option.bind_eq_some_iff.mp hf
    obtain ⟨issuer, hissuer, hident⟩ := isRowOf_iff.mp (isRowOf_of_lastRowOf? hlast)
    have hnamed : unnamed keys issuer = false := by
      rw [unnamed, List.all_eq_false]
      refine ⟨key, List.mem_of_getElem? hkey, ?_⟩
      simp [Key.issuer_of_cleanIssuer hclean, hident]
    rw [hissuer, Option.any_some, hnamed]
  have hfilter (rows : List ℕ) : (rows.filterMap (keys[·]?)).filter (unnamed keys) =
      (rows.filter fun row => keys[row]?.any (unnamed keys)).filterMap (keys[·]?) := by
    rw [List.filter_filterMap, List.filterMap_filter]
    refine List.filterMap_congr fun row _ => ?_
    cases keys[row]? <;> simp [Option.filter]
  rw [issuersFirst, hfilter, filter_issuerOrder _ hleaf, ← hfilter, filterMap_range]

theorem reorders_issuersFirst (keys : List Key) : Reorders keys (issuersFirst keys) where
  positions := by
    refine ⟨issuerOrder keys, issuerOrder_perm keys, ?_⟩
    rw [issuersFirst, List.map_filterMap_some_eq_filter_map_isSome, List.filter_eq_self]
    intro entry hentry
    obtain ⟨row, hrow, rfl⟩ := List.mem_map.mp hentry
    simpa using (ordered_issuerOrder keys).bounded row hrow
  kept := filter_issuersFirst keys

/-- The order with issuers first only moves keys, even if some have equal fingerprints. If none
have, keys come after their issuers, except for exactly one on each cycle. -/
theorem issuersFirst_leads (keys : List Key) :
    Reorders keys (issuersFirst keys) ∧
      ((keys.map Key.ident).Nodup → IssuersLead keys (issuersFirst keys)) :=
  ⟨reorders_issuersFirst keys, issuersLead_issuersFirst⟩

/-- A circle of three keys, a fourth below one of them, and a fifth whose issuer is not there. -/
theorem issuersFirst_leads_circle :
    let named (name issuer : String) := (Key.ofFingerprint (.ofText name)).issuedBy (.ofText issuer)
    let keys := [named "A" "B", named "B" "C", named "C" "A", named "D" "B", named "E" "Z"]
    OnCycle keys (named "A" "B").ident ∧ (keys.map Key.ident).Nodup ∧
      IssuersLead keys (issuersFirst keys) := by
  intro named keys
  have hfirst : Issues keys (named "A" "B").ident (named "C" "A").ident := by
    unfold Issues
    decide +kernel
  have hsecond : Issues keys (named "C" "A").ident (named "B" "C").ident := by
    unfold Issues
    decide +kernel
  have hthird : Issues keys (named "B" "C").ident (named "A" "B").ident := by
    unfold Issues
    decide +kernel
  have hnodup : (keys.map Key.ident).Nodup := by decide +kernel
  exact ⟨((TransGen.single hfirst).tail hsecond).tail hthird, hnodup,
    (issuersFirst_leads keys).2 hnodup⟩

end KeyForest.Bucket
