import Stencil.Proofs.Stream.ClosingStep
import Stencil.Proofs.Stream.Run

/-!
# Runs of streams that close what is open

A step of a stream is a step of one of its parts, while the other parts, and the streams they read, wait
(`Advance.KeepsPart`). A stream that is a value and begins to be read has to close nothing, and so it does if
it is not being read in another place already. That is asked of every state of a run, and then all that the
run has yielded pairs up with what is left (`Stream.run_closes`).
-/

namespace Stencil

open Store

variable {trust : Trust} {k : Nat} {outer : List Nat} {u v w : Stream} {s r t : Store} {e : Event} {es : List Event}
  {ns ns' : List Text}

namespace Stream

/-- The state after a step of a part, the streams in `outer` being read by the other parts. -/
structure PartAfter (trust : Trust) (outer : List Nat) (s : Store) (v : Stream) (r : Store) (ns : List Text) :
    Prop where
  closes : v.Closes trust r ns
  sound : r.Sound trust
  idle : r.Idle trust (v.reads ++ outer)
  others : ∀ id ∈ outer, ∀ ns, (s.replay id).Closes trust ns → (r.replay id).Closes trust ns

/-- Another stream that reads the same. -/
theorem PartAfter.change (h : PartAfter trust outer s v r ns) (same : w.reads = v.reads)
    (closes : w.Closes trust r ns') : PartAfter trust outer s w r ns' := ⟨closes, h.sound, same ▸ h.idle, h.others⟩

/-- The store gets on, with no stream read any further. -/
theorem PartAfter.grow (h : PartAfter trust outer s v r ns) (sound : t.Sound trust) (grows : r.Grows trust t) :
    PartAfter trust outer s v t ns where
  closes := h.closes.mono fun id _ => grows id
  sound := sound
  idle := h.idle.grow grows
  others id hid ns before := grows id ns (h.others id hid ns before)

theorem BareAfter.after (h : BareAfter trust s v r ns) (idle : s.Idle trust outer) :
    PartAfter trust outer s v r ns := by
  refine ⟨h.closes.closes r, h.sound, ?_, fun id _ => h.grows id⟩
  rw [h.closes.reads]
  exact idle.grow h.grows

end Stream

namespace Advance

/-- A step of a part of a stream keeps what holds of it, if no stream that is a value is read in two places
afterwards. -/
inductive KeepsPart (trust : Trust) (outer : List Nat) (s : Store) : List Text → Advance → Prop
  | skip {ns : List Text} {v : Stream} {r : Store}
      (after : (v.reads ++ outer).Nodup → Stream.PartAfter trust outer s v r ns) : KeepsPart trust outer s ns (.skip v r)
  | yield {ns : List Text} {e : Event} {v : Stream} {r : Store}
      (after : (v.reads ++ outer).Nodup →
        e.Proper trust ∧ ∃ ns', e.pair ns = some ns' ∧ Stream.PartAfter trust outer s v r ns') :
      KeepsPart trust outer s ns (.yield e v r)
  | done {v : Stream} {r : Store} (closes : v.Closes trust r []) (sound : r.Sound trust) (idle : r.Idle trust outer)
      (others : ∀ id ∈ outer, ∀ ns, (s.replay id).Closes trust ns → (r.replay id).Closes trust ns) :
      KeepsPart trust outer s [] (.done v r)
  | fail {ns : List Text} {why : Stop} {v : Stream} {r : Store} : KeepsPart trust outer s ns (.fail why v r)

/-- A step of an element that directives have been applied to. -/
theorem KeepsBare.keeps {a : Advance} (h : KeepsBare trust s ns a) (idle : s.Idle trust outer) :
    KeepsPart trust outer s ns a := by
  cases h with
  | skip after => exact .skip fun _ => after.after idle
  | yield proper pair after => exact .yield fun _ => ⟨proper, _, pair, after.after idle⟩
  | done after => exact .done (after.closes.closes _) after.sound (idle.grow after.grows) fun id _ => after.grows id
  | fail => exact .fail

/-- A step of a stream that hands on the events of another one. -/
theorem KeepsPart.map {a : Advance} {wrap : Stream → Stream} (h : KeepsPart trust outer s ns a)
    (reads : ∀ v, (wrap v).reads = v.reads) (closes : ∀ {v r ns}, v.Closes trust r ns → (wrap v).Closes trust r ns) :
    KeepsPart trust outer s ns (a.map wrap) := by
  cases h with
  | skip after =>
    refine .skip fun once => ?_
    have after := after (reads _ ▸ once)
    exact after.change (reads _) (closes after.closes)
  | yield after =>
    refine .yield fun once => ?_
    obtain ⟨proper, ns', pair, after⟩ := after (reads _ ▸ once)
    exact ⟨proper, ns', pair, after.change (reads _) (closes after.closes)⟩
  | done rest sound idle others => exact .done (closes rest) sound idle others
  | fail => exact .fail

end Advance

open Advance

namespace Stream

/-! ## Streams that are values -/

theorem keepsPart_stepShared {id : Nat} (h : s.Sound trust) (idle : s.Idle trust (id :: outer))
    (closes : (s.replay id).Closes trust ns) : KeepsPart trust outer s ns (stepShared id s) := by
  have made := closes.context h.context
  have sound (q : Replay) : Store.Sound trust { s.setReplay id q with context := ((s.replay id).next s.context).2.2 } :=
    (h.setReplay id q).withContext made
  have elsewhere {q : Replay} {j : Nat} (other : j ≠ id) : (s.setReplay id q).replay j = s.replay j :=
    (replay_setReplay_cases s id q j).resolve_right fun same => other same.1
  unfold stepShared
  cases next : ((s.replay id).next s.context).1 with
  | none =>
    obtain ⟨rfl, before, rest⟩ := closes.ended next
    have grows : s.Grows trust _ := grows_setReplay before rest
    generalize (s.replay id).next s.context = p at *
    obtain ⟨e?, q, c⟩ := p
    subst next
    refine .done (grows id [] closes) (sound q) (fun j own unread => ?_) fun j _ => grows j
    by_cases same : j = id
    · exact same ▸ grows id [] closes
    · exact grows j [] (idle j own (by simp [same, unread]))
  | some e =>
    obtain ⟨proper, after, pair, rest⟩ := closes.yields next
    have here : (s.replay id).left ≠ [] := by
      rw [(s.replay id).left_eq s.context, next]
      simp
    have set := replay_setReplay_self ((s.replay id).next s.context).2.1 here
    generalize (s.replay id).next s.context = p at *
    obtain ⟨e?, q, c⟩ := p
    subst next
    refine .yield fun once => ⟨proper, after, pair, ?_, sound q, ?_, ?_⟩
    · change ((s.setReplay id q).replay id).Closes trust after
      rwa [set]
    · intro j own unread
      change j ∉ id :: outer at unread
      have other : j ≠ id := fun same => unread (same ▸ List.mem_cons_self)
      change ((s.setReplay id q).replay j).Closes trust []
      rw [elsewhere other]
      exact idle j own unread
    · intro j hj ns before
      have other : j ≠ id := by
        rintro rfl
        exact (List.nodup_cons.1 once).1 hj
      change ((s.setReplay id q).replay j).Closes trust ns
      rwa [elsewhere other]

/-! ## Directives -/

/-- Directives that need not be applied to the whole element, and are to be applied to what closes nothing. -/
theorem closes_directed {ds : List Directive} (proper : Directive.AllProper trust ds)
    (keeps : Directive.keepsPairs false ds = true) (closes : u.ClosesBare trust []) (s : Store) :
    (directed ds [] u).Closes trust s [] := ⟨rfl, proper, trivial, .inr ⟨keeps, .inl rfl, [], rfl, closes⟩⟩

/-- The state after a step that reads no stream. -/
theorem keepsPart_quiet (idle : s.Idle trust outer) (quiet : v.reads = []) (closes : v.Closes trust r ns)
    (sound : r.Sound trust) (grows : s.Grows trust r) : KeepsPart trust outer s ns (.skip v r) := by
  refine .skip fun _ => ⟨closes, sound, ?_, fun id _ => grows id⟩
  rw [quiet]
  exact idle.grow grows

theorem keepsPart_drop {ds : List Directive} (idle : s.Idle trust outer) (proper : Directive.AllProper trust ds)
    (keeps : Directive.keepsPairs false ds = true) (sound : r.Sound trust) (grows : s.Grows trust r) :
    KeepsPart trust outer s [] (drop ds u r) := by
  have closed := close_rests u sound
  have nothing : empty.ClosesBare trust [] := closesBare_ofEvents ⟨rfl, trivial⟩
  exact keepsPart_quiet idle rfl (closes_directed proper keeps nothing _) closed.sound
    (grows.trans closed.grows)

/-- A test drops the element or keeps it as it is. -/
theorem keepsPart_test {wanted : Bool} {x : Expression} {ds : List Directive} (h : s.Sound trust)
    (idle : s.Idle trust outer) (proper : Directive.AllProper trust ds) (keeps : Directive.keepsPairs false ds = true)
    (closes : u.ClosesBare trust []) :
    KeepsPart trust outer s [] (test k wanted x ds u s) := by
  unfold test
  cases value : x.eval k s with
  | error why => exact .fail
  | ok q =>
    obtain ⟨w, r⟩ := q
    obtain ⟨⟨sound, grows⟩, -⟩ := x.eval_paired h value
    dsimp only
    split
    · exact keepsPart_quiet idle closes.reads (closes_directed proper keeps closes _) sound grows
    · exact keepsPart_drop idle proper keeps sound grows

/-- What a directive does that need not be applied to the whole element, and need not read it. -/
theorem keepsPart_applyDirective {d : Directive} {ds : List Directive} (h : s.Sound trust) (idle : s.Idle trust outer)
    (proper : Directive.AllProper trust (d :: ds)) (needs : needsEvents d s = false)
    (keeps : Directive.keepsPairs false (d :: ds) = true) (unread : ¬ Gathers d → u.ClosesBare trust []) :
    KeepsPart trust outer s [] (applyDirective k d ds u s) := by
  obtain ⟨first, rest⟩ := proper
  have unread (noSlot : d.slot? = none) (builtin : ∀ kind e?, d ≠ .extension kind e?) : u.ClosesBare trust [] := by
    apply unread
    rintro (slot | ⟨kind, e?, -, same⟩)
    · rw [noSlot] at slot
      cases slot
    · exact builtin kind e? same
  cases d with
  | loop targets items =>
    have after : (loop targets items u).ClosesBare trust [] := ⟨rfl, unread rfl (by simp)⟩
    exact keepsPart_quiet idle after.reads (closes_directed rest keeps after s) h (.refl s)
  | condition x => exact keepsPart_test h idle rest keeps (unread rfl (by simp))
  | replace x =>
    have after : (replaced x u).ClosesBare trust [] := ⟨rfl, unread rfl (by simp)⟩
    exact keepsPart_quiet idle after.reads (closes_directed rest keeps after s) h (.refl s)
  | attributes x =>
    have after : (attributes x u).ClosesBare trust [] := unread rfl (by simp)
    exact keepsPart_quiet idle after.reads (closes_directed rest keeps after s) h (.refl s)
  | expand body matched =>
    obtain ⟨trusted, paired, matchedProper⟩ := first
    have closed := close_rests u h
    have after : (replay (.waiting [("select", .function ⟨(u.close s).nextFunction, .select matched⟩)]
        ((u.close s).body body))).ClosesBare trust [] := by
      refine ⟨closed.sound.body trusted, ?_⟩
      rintro _ _ ⟨⟩
      exact .cons ⟨paired, matchedProper⟩ .nil
    exact keepsPart_quiet idle rfl (closes_directed rest keeps after _) (closed.sound.numbered _)
      (closed.grows.trans (grows_of_replays rfl))
  | define signature body =>
    have captured : (s.captured? body).isSome = true := by simpa [needsEvents] using needs
    have same : s.capture body [] = s := if_pos captured
    change KeepsPart trust outer s [] (drop ds u (bindTemplate signature body (s.capture body [])))
    rw [same]
    have trusted : trust.body body := first
    exact keepsPart_drop idle rest keeps (h.bindTemplate trusted) (grows_of_replays rfl)
  | capture body =>
    have captured : (s.captured? body).isSome = true := by simpa [needsEvents] using needs
    have same : s.capture body [] = s := if_pos captured
    change KeepsPart trust outer s [] (drop ds u (s.capture body []))
    rw [same]
    exact keepsPart_drop idle rest keeps h (.refl s)
  | content | strip | extension => cases keeps

/-- What a directive does that has read its element. -/
theorem keepsPart_complete {d : Directive} {ds : List Directive} {es : List Event} (h : r.Sound trust)
    (idle : s.Idle trust outer) (grows : s.Grows trust r) (proper : Directive.AllProper trust (d :: ds))
    (needs : needsEvents d s = true) (keeps : Directive.keepsPairs false (d :: ds) = true)
    (closing : Event.Closing trust [] es) : KeepsPart trust outer s [] (complete d ds es u r) := by
  obtain ⟨first, rest⟩ := proper
  cases d with
  | define signature body =>
    have captured : (r.capture body es).Sound trust := h.capture fun _ => closing
    have trusted : trust.body body := first
    exact keepsPart_drop idle rest keeps (captured.bindTemplate trusted)
      (grows.trans (grows_of_replays (replays_capture r body es)))
  | capture body =>
    exact keepsPart_drop idle rest keeps (h.capture fun _ => closing)
      (grows.trans (grows_of_replays (replays_capture r body es)))
  | extension => cases keeps
  | _ => cases needs

/-- A directive that needs the element as a whole, or hands it on so. -/
theorem keepsPart_whole {d : Directive} {ds : List Directive} (h : s.Sound trust) (idle : s.Idle trust outer)
    (proper : Directive.AllProper trust (d :: ds)) (keeps : Directive.keepsPairs true (d :: ds) = true)
    (element : u.element? = some es) (whole : Event.Whole es) (properEvents : Event.AllProper trust es)
    (position : Directive.keepsPairs false (d :: ds) = false) :
    KeepsPart trust outer s [] (applyDirective k d ds u s) := by
  have quiet : u.reads = [] := reads_of_bare (bare_of_element element)
  cases d with
  | strip test =>
    have after : (strip test .untested u).ClosesBare trust [] := ⟨es, element, properEvents, rfl, whole⟩
    exact keepsPart_quiet idle quiet (closes_directed proper.2 keeps after s) h (.refl s)
  | content x =>
    have after : (content x .start u).ClosesBare trust [] := ⟨es, element, properEvents, rfl, whole⟩
    exact keepsPart_quiet idle quiet (closes_directed proper.2 keeps after s) h (.refl s)
  | attributes x =>
    have after : (attributes x u).element? = some es := element
    exact keepsPart_quiet idle quiet ⟨rfl, proper.2, trivial, .inl ⟨keeps, rfl, es, after, whole, properEvents⟩⟩ h
      (.refl s)
  | extension => cases keeps
  | define | capture | loop | condition | replace | expand =>
    change Directive.keepsPairs false ds = false at position
    change Directive.keepsPairs false ds = true at keeps
    rw [keeps] at position
    cases position

/-- A step of the element while it is read for its first directive. -/
theorem keepsPart_gather {d : Directive} {ds : List Directive} {read : List Event} {inner : List Text}
    (h : s.Sound trust) (idle : s.Idle trust outer) (proper : Directive.AllProper trust (d :: ds))
    (properRead : Event.AllProper trust read) (needs : needsEvents d s = true)
    (whole : Directive.keepsPairs false (d :: ds) = true) (paired : Event.pairAll [] read.reverse = some inner)
    (closes : u.ClosesBare trust inner) : KeepsPart trust outer s [] (step k (directed (d :: ds) read u) s) := by
  have gathers : ∃ d' ∈ (d :: ds).head?, Gathers d' := ⟨d, rfl, gathers_of_needs needs⟩
  have next := step_closesBare (k := k) h closes
  rw [step, if_pos needs]
  generalize step k u s = a at next
  cases next with
  | skip after =>
    exact keepsPart_quiet idle after.closes.reads
      ⟨rfl, proper, properRead, .inr ⟨whole, .inr gathers, inner, paired, after.closes⟩⟩ after.sound after.grows
  | @yield _ inner' e v r properEvent pair after =>
    exact keepsPart_quiet idle after.closes.reads
      ⟨rfl, proper, ⟨properEvent, properRead⟩,
        .inr ⟨whole, .inr gathers, inner', Event.pairAll_reverse_cons paired pair, after.closes⟩⟩ after.sound after.grows
  | done after =>
    exact keepsPart_complete after.sound idle after.grows proper needs whole
      ⟨paired, Event.allProper_reverse.2 properRead⟩
  | fail => exact .fail

/-- Directives that are applied to whatever is paired: an element may as well be any paired events. -/
theorem keepsPart_anywhere {d : Directive} {ds : List Directive} {read : List Event} (h : s.Sound trust)
    (idle : s.Idle trust outer) (whole : Directive.keepsPairs false (d :: ds) = true)
    (closes : (directed (d :: ds) read u).Closes trust s []) :
    KeepsPart trust outer s [] (step k (directed (d :: ds) read u) s) := by
  obtain ⟨-, proper, properRead, position⟩ := closes
  have position : (read = [] ∨ Gathers d) ∧
      ∃ inner, Event.pairAll [] read.reverse = some inner ∧ u.ClosesBare trust inner := by
    rcases position with ⟨-, rfl, es, element, whole, properEvents⟩ | ⟨-, position, rest⟩
    · exact ⟨.inl rfl, [], rfl, closesBare_of_element element ⟨whole.paired, properEvents⟩⟩
    · refine ⟨position.imp_right ?_, rest⟩
      rintro ⟨d', hd, gathers⟩
      cases hd
      exact gathers
  obtain ⟨position, inner, paired, closes⟩ := position
  by_cases needs : needsEvents d s = true
  · exact keepsPart_gather h idle proper properRead needs whole paired closes
  · rw [step, if_neg needs]
    refine keepsPart_applyDirective h idle proper (by simpa using needs) whole fun others => ?_
    obtain rfl := position.resolve_right others
    cases paired
    exact closes

/-- An element is read, or the next directive is applied to it. -/
theorem keepsPart_directed {ds : List Directive} {read : List Event} (h : s.Sound trust) (idle : s.Idle trust outer)
    (closes : (directed ds read u).Closes trust s ns) : KeepsPart trust outer s ns (step k (directed ds read u) s) := by
  obtain rfl : ns = [] := closes.1
  cases ds with
  | nil =>
    obtain ⟨-, -, -, position⟩ := closes
    have unread : u.ClosesBare trust [] := by
      rcases position with ⟨-, -, es, element, whole, properEvents⟩ | ⟨-, rfl | ⟨d, hd, -⟩, inner, paired, closes⟩
      · exact closesBare_of_element element ⟨whole.paired, properEvents⟩
      · cases paired
        exact closes
      · cases hd
    exact keepsPart_quiet idle unread.reads (unread.closes s) h (.refl s)
  | cons d ds =>
    by_cases whole : Directive.keepsPairs false (d :: ds) = true
    · exact keepsPart_anywhere h idle whole closes
    · obtain ⟨-, proper, -, ⟨keeps, rfl, es, element, isWhole, properEvents⟩ | ⟨keeps, -⟩⟩ := closes
      · have unneeded : needsEvents d s = false := by
          cases d with
          | define | capture => exact absurd keeps whole
          | extension => cases keeps
          | _ => rfl
        rw [step, if_neg (by simp [unneeded])]
        exact keepsPart_whole h idle proper keeps element isWhole properEvents (by simpa using whole)
      · exact absurd keeps whole

/-! ## Computed expressions -/

theorem keepsPart_evaluateEvent (next : (v.reads ++ outer).Nodup →
      e.Proper trust ∧ ∃ ns', e.pair ns = some ns' ∧ PartAfter trust outer s v r ns') :
    KeepsPart trust outer s ns (evaluateEvent k e v r) := by
  have handsOn : KeepsPart trust outer s ns (.yield e (.evaluated v) r) := by
    refine .yield fun once => ?_
    obtain ⟨proper, ns', pair, after⟩ := next once
    exact ⟨proper, ns', pair, after.change rfl after.closes⟩
  cases e with
  | startTag p name as =>
    unfold evaluateEvent
    dsimp only
    cases value : Attributes.eval k as r with
    | error why => exact .fail
    | ok q =>
      obtain ⟨as', t⟩ := q
      refine .yield fun once => ?_
      obtain ⟨-, ns', pair, after⟩ := next once
      obtain ⟨sound, grows⟩ := Attributes.eval_paired after.sound value
      have later := after.grow sound grows
      exact ⟨trivial, ns', pair, later.change rfl later.closes⟩
  | expression p x =>
    unfold evaluateEvent
    dsimp only
    cases value : x.eval k r with
    | error why => exact .fail
    | ok q =>
      obtain ⟨w, t⟩ := q
      -- an expression is no tag, so what is open before it is open after it
      have later (once : (v.reads ++ outer).Nodup) : PartAfter trust outer s v t ns ∧ w.From (.paired trust) := by
        obtain ⟨-, ns', pair, after⟩ := next once
        cases pair
        obtain ⟨⟨sound, grows⟩, made⟩ := x.eval_paired after.sound value
        exact ⟨after.grow sound grows, made⟩
      have plain : KeepsPart trust outer s ns
          (if w.isNull then .skip (.evaluated v) t else .yield (.text p w.toText) (.evaluated v) t) := by
        split
        · refine .skip fun once => ?_
          obtain ⟨after, -⟩ := later once
          exact after.change rfl after.closes
        · refine .yield fun once => ?_
          obtain ⟨after, -⟩ := later once
          exact ⟨trivial, ns, rfl, after.change rfl after.closes⟩
      cases w with
      | stream id =>
        refine .skip fun once => ?_
        -- the stream is not being read, so it is at its start or at its end
        obtain ⟨unread, others⟩ := List.nodup_cons.1 once
        obtain ⟨after, own⟩ := later others
        refine ⟨⟨[], ns, rfl, after.idle id own unread, after.closes⟩, after.sound, ?_, after.others⟩
        exact fun j ownJ unreadJ => after.idle j ownJ fun read => unreadJ (List.mem_cons_of_mem _ read)
      | _ => exact plain
  | _ => exact handsOn

/-! ## Substituted elements -/

variable {path : Path} {body : BodyId} {openElements : List Event} {a : Advance}

theorem keepsPart_stepSubstituted (trusted : trust.body body) (h : KeepsPart trust outer s ns a) :
    KeepsPart trust outer s ns (stepSubstituted path body openElements a) := by
  have mapped : KeepsPart trust outer s ns (a.map (.substituted path body openElements)) :=
    h.map (fun _ => rfl) fun closes => ⟨trusted, closes⟩
  cases h with
  | @yield _ e v r next =>
    have handsOn (elements : List Event) :
        KeepsPart trust outer s ns (.yield e (.substituted path body elements v) r) := by
      refine .yield fun once => ?_
      obtain ⟨proper, ns', pair, after⟩ := next once
      exact ⟨proper, ns', pair, after.change rfl ⟨trusted, after.closes⟩⟩
    unfold stepSubstituted
    dsimp only
    split
    · split
      · rename_i start _
        refine .skip fun once => ?_
        obtain ⟨proper, ns', pair, after⟩ := next once
        obtain ⟨p, name, as, rfl⟩ := Event.eq_startTag start
        cases pair
        exact after.change rfl ⟨trusted, ⟨trivial, trivial⟩, [name.qualified], by simp, rfl, rfl, after.closes⟩
      · exact handsOn _
    · split
      · exact handsOn _
      · exact handsOn _
  | skip | done | fail => exact mapped

/-- A matched element is what is open in it, until all of that is closed. -/
theorem keepsPart_stepMatching {p : Position} {depth : Nat} {matched : List Event} {inner : List Text}
    (trusted : trust.body body) (proper : Event.AllProper trust matched) (isOpen : inner ≠ [])
    (length : inner.length = depth) (paired : Event.pairAll [] matched.reverse = some inner) (h : KeepsPart trust outer s (inner ++ ns) a) :
    KeepsPart trust outer s ns (stepMatching path body openElements p depth matched a) := by
  generalize names : inner ++ ns = all at h
  cases h with
  | skip next =>
    refine .skip fun once => ?_
    have after := next once
    exact after.change rfl ⟨trusted, proper, inner, isOpen, length, paired, names ▸ after.closes⟩
  | @yield _ e v r next =>
    have read (once : (v.reads ++ outer).Nodup) : Event.AllProper trust (e :: matched) ∧
        ∃ mid, mid.length = (if e.isStart then depth + 1 else if e.isEnd then depth - 1 else depth) ∧
          Event.pairAll [] (e :: matched).reverse = some mid ∧ PartAfter trust outer s v r (mid ++ ns) := by
      obtain ⟨properEvent, ns', pair, after⟩ := next once
      rw [← names] at pair
      obtain ⟨mid, rfl, pair, depths⟩ := Event.pair_inside isOpen pair
      exact ⟨⟨properEvent, proper⟩, mid, length ▸ depths, Event.pairAll_reverse_cons paired pair, after⟩
    unfold stepMatching
    dsimp only
    generalize (if e.isStart then depth + 1 else if e.isEnd then depth - 1 else depth) = n at read ⊢
    split
    · rename_i closed
      refine .yield fun once => ?_
      obtain ⟨proper, mid, depths, paired, after⟩ := read once
      obtain rfl : mid = [] := List.length_eq_zero_iff.1 (depths.trans closed)
      have substitution : (substitution p body (e :: matched).reverse).Proper trust :=
        ⟨.inr ⟨rfl, rfl⟩, ⟨⟨trusted, paired, Event.allProper_reverse.2 proper⟩, trivial⟩, trivial⟩
      exact ⟨substitution, ns, rfl, after.change rfl ⟨trusted, after.closes⟩⟩
    · rename_i inside
      refine .skip fun once => ?_
      obtain ⟨proper, mid, depths, paired, after⟩ := read once
      have isOpen : mid ≠ [] := by
        rintro rfl
        exact inside depths.symm
      exact after.change rfl ⟨trusted, proper, mid, isOpen, depths, paired, after.closes⟩
  | done => exact absurd (List.append_eq_nil_iff.1 names).1 isOpen
  | fail => exact .fail

/-! ## Texts -/

theorem keepsPart_stepTidied {text? : Option (Position × Text)} (h : KeepsPart trust outer s ns a) :
    KeepsPart trust outer s ns (stepTidied text? a) := by
  cases h with
  | skip next =>
    refine .skip fun once => ?_
    have after := next once
    exact after.change rfl ⟨trivial, _, rfl, after.closes⟩
  | @yield _ e v r next =>
    have handsOn : KeepsPart trust outer s ns (.yield e (.tidied none none v) r) := by
      refine .yield fun once => ?_
      obtain ⟨proper, ns', pair, after⟩ := next once
      exact ⟨proper, ns', pair, after.change rfl ⟨trivial, ns', rfl, after.closes⟩⟩
    -- what comes after the texts waits until they have been yielded
    have waits (p : Position) (t : Text) :
        KeepsPart trust outer s ns (.yield (.text p t.tidy) (.tidied (some e) none v) r) := by
      refine .yield fun once => ?_
      obtain ⟨proper, ns', pair, after⟩ := next once
      refine ⟨trivial, ns, rfl, after.change rfl ⟨⟨proper, trivial⟩, ns', ?_, after.closes⟩⟩
      simp [pair]
    cases e with
    | text p t =>
      refine .skip fun once => ?_
      obtain ⟨-, ns', pair, after⟩ := next once
      cases pair
      exact after.change rfl ⟨trivial, ns, rfl, after.closes⟩
    | _ =>
      cases text? with
      | none => exact handsOn
      | some q => exact waits q.1 q.2
  | done closes sound idle others =>
    unfold stepTidied
    dsimp only
    split
    · refine .yield fun _ => ⟨trivial, [], rfl, ⟨trivial, [], rfl, closes⟩, sound, fun id own unread => ?_, others⟩
      exact idle id own fun read => unread (List.mem_append_right _ read)
    · exact .done ⟨trivial, [], rfl, closes⟩ sound idle others
  | fail => exact .fail

/-! ## Templates -/

/-- A stream that is left at its end. -/
theorem keepsPart_end (sound : r.Sound trust) (idle : r.Idle trust outer)
    (others : ∀ id ∈ outer, ∀ ns, (s.replay id).Closes trust ns → (r.replay id).Closes trust ns) :
    KeepsPart trust outer s [] (.done .empty (v.close r)) := by
  have closed := close_rests v sound
  have nothing : empty.ClosesBare trust [] := closesBare_ofEvents ⟨rfl, trivial⟩
  exact .done (nothing.closes _) closed.sound (idle.grow closed.grows) fun id hid ns before =>
    closed.grows id ns (others id hid ns before)

theorem keepsPart_stepExpanded {t : Template} {last : Position} (filters : ∀ f ∈ t.expansionFilters, f.Proper trust)
    (h : KeepsPart trust outer s ns a) : KeepsPart trust outer s ns (stepExpanded t last a) := by
  cases h with
  | skip next =>
    refine .skip fun once => ?_
    have after := next once
    exact after.change rfl ⟨filters, after.closes⟩
  | @yield _ e v r next =>
    have handsOn : KeepsPart trust outer s ns (.yield e (.expanded t e.position v) r) := by
      refine .yield fun once => ?_
      obtain ⟨proper, ns', pair, after⟩ := next once
      exact ⟨proper, ns', pair, after.change rfl ⟨filters, after.closes⟩⟩
    cases e with
    | sub p ds es =>
      refine .skip fun once => ?_
      have quiet {w : Stream} (none : w.reads = []) : (append w v).reads = v.reads := by simp [reads, none]
      have reads : ((directed ds.reverse [] (.ofEvents es)).filtered t.expansionFilters).reads = [] :=
        reads_filtered filters _
      obtain ⟨⟨position, directives, events⟩, ns', pair, after⟩ := next (quiet reads ▸ once)
      cases pair
      have element : (directed ds.reverse [] (.ofEvents es)).Closes trust r [] := by
        refine ⟨rfl, Directive.allProper_reverse.2 directives, trivial, ?_⟩
        rcases position with ⟨whole, keeps⟩ | ⟨paired, keeps⟩
        · exact .inl ⟨keeps, rfl, es, rfl, whole, events⟩
        · exact .inr ⟨keeps, .inl rfl, [], rfl, closesBare_ofEvents ⟨paired, events⟩⟩
      exact after.change (quiet reads) ⟨filters, [], ns, rfl, closes_filtered filters element, after.closes⟩
    | _ => exact handsOn
  | done closes sound idle others => exact keepsPart_end sound idle others
  | fail => exact .fail

/-! ## One stream after another -/

theorem PartAfter.append {names : List Text} (closes : v.Closes trust s names)
    (h : PartAfter trust (v.reads ++ outer) s w r ns) : PartAfter trust outer s (.append w v) r (ns ++ names) where
  closes := ⟨ns, names, rfl, h.closes, closes.mono fun id hid => h.others id (List.mem_append_left _ hid)⟩
  sound := h.sound
  idle := by
    rw [reads, List.append_assoc]
    exact h.idle
  others id hid := h.others id (List.mem_append_right _ hid)

/-- A step of the first stream, the second one being one of the others. -/
theorem keepsPart_append {names : List Text} (closes : v.Closes trust s names)
    (h : KeepsPart trust (v.reads ++ outer) s ns (step k u s)) :
    KeepsPart trust outer s (ns ++ names) (step k (append u v) s) := by
  have assoc {w : Stream} (once : ((append w v).reads ++ outer).Nodup) : (w.reads ++ (v.reads ++ outer)).Nodup := by
    rwa [← List.append_assoc]
  rw [step]
  generalize step k u s = a at h
  cases h with
  | skip next => exact .skip fun once => (next (assoc once)).append closes
  | yield next =>
    refine .yield fun once => ?_
    obtain ⟨proper, ns', pair, after⟩ := next (assoc once)
    exact ⟨proper, ns' ++ names, Event.pair_frame pair names, after.append closes⟩
  | @done w r _ sound idle others =>
    have closed := close_rests w sound
    refine .skip fun _ => ⟨?_, closed.sound, idle.grow closed.grows, fun id hid ns before => ?_⟩
    · exact closes.mono fun id hid ns before => closed.grows id ns (others id (List.mem_append_left _ hid) ns before)
    · exact closed.grows id ns (others id (List.mem_append_right _ hid) ns before)
  | fail => exact .fail

/-! ## All streams -/

/-- **The step lemma.** A step of a stream keeps what holds of it, the streams in `outer` being read by the
streams around it. -/
theorem step_closes (h : s.Sound trust) (idle : s.Idle trust (u.reads ++ outer)) (closes : u.Closes trust s ns) :
    KeepsPart trust outer s ns (step k u s) := by
  induction u generalizing outer ns with
  | shared id => exact keepsPart_stepShared h idle closes
  | append first rest ih =>
    obtain ⟨inner, names, rfl, left, right⟩ := closes
    rw [reads, List.append_assoc] at idle
    exact keepsPart_append right (ih idle left)
  | directed ds read u =>
    have quiet : u.reads = [] := by
      obtain ⟨-, -, -, ⟨-, -, es, element, -⟩ | ⟨-, -, inner, -, bare⟩⟩ := closes
      · exact reads_of_bare (bare_of_element element)
      · exact bare.reads
    rw [reads, quiet] at idle
    exact keepsPart_directed h idle closes
  | evaluated u ih =>
    have next := ih idle closes
    rw [step]
    generalize step k u s = a at next
    cases next with
    | yield next => exact keepsPart_evaluateEvent next
    | skip next =>
      refine .skip fun once => ?_
      have after := next once
      exact after.change rfl after.closes
    | done closes sound idle others => exact keepsPart_end sound idle others
    | fail => exact .fail
  | tidied pending? text? u ih =>
    obtain ⟨proper, after, pending, rest⟩ := closes
    cases pending? with
    | none =>
      cases pending
      exact keepsPart_stepTidied (ih idle rest)
    | some e =>
      obtain ⟨_, first, second⟩ := Event.pairAll_cons_some pending
      cases second
      exact .yield fun _ => ⟨proper.1, after, first, ⟨trivial, after, rfl, rest⟩, h, idle, fun _ _ _ before => before⟩
  | substituted path body openElements u ih => exact keepsPart_stepSubstituted closes.1 (ih idle closes.2)
  | matching path body openElements p depth matched u ih =>
    obtain ⟨trusted, proper, inner, isOpen, length, paired, rest⟩ := closes
    exact keepsPart_stepMatching trusted proper isOpen length paired (ih idle rest)
  | expanded t last u ih => exact keepsPart_stepExpanded closes.1 (ih idle closes.2)
  | included | including | inserting => exact closes.elim
  | replay | ended | loop | gathering | looping | attributes | content | replaced | strip =>
    have bare := closes
    refine (step_closesBare h bare).keeps ?_
    rwa [ClosesBare.reads bare] at idle

/-! ## Runs -/

/-- In no state that is reached is a stream that is a value being read in two places. -/
def Separate (k : Nat) (u : Stream) (s : Store) : Prop := ∀ es v r, Run k u s es v r → v.reads.Nodup

/-- **The run lemma.** What a run yields pairs up with what is left of the stream. -/
theorem run_closes (start : PartAfter trust [] t u s ns) (separate : Separate k u s) (run : Run k u s es v r) :
    ∃ ns', Event.pairAll ns es = some ns' ∧ PartAfter trust [] t v r ns' := by
  have after {v : Stream} {s r : Store} {ns : List Text} (h : PartAfter trust [] s v r ns) :
      PartAfter trust [] t v r ns :=
    ⟨h.closes, h.sound, h.idle, by simp⟩
  have alone {v : Stream} (once : v.reads.Nodup) : (v.reads ++ []).Nodup := by rwa [List.append_nil]
  induction run generalizing ns with
  | refl => exact ⟨ns, rfl, start⟩
  | @skip _ v _ _ t _ _ first rest ih =>
    have next := step_closes (k := k) start.sound start.idle start.closes
    rw [first] at next
    cases next with
    | skip next =>
      have once := separate _ _ _ (.silent first)
      exact ih (after (next (alone once))) fun _ _ _ later => separate _ _ _ (.skip first later)
  | yield first rest ih =>
    have next := step_closes (k := k) start.sound start.idle start.closes
    rw [first] at next
    cases next with
    | yield next =>
      obtain ⟨-, mid, pair, next⟩ := next (alone (separate _ _ _ (.single first)))
      obtain ⟨ns', pairs, final⟩ := ih (after next) fun _ _ _ later => separate _ _ _ (.yield first later)
      refine ⟨ns', ?_, final⟩
      rw [Event.pairAll_cons, pair]
      exact pairs

/-- What has been yielded closes what was open when the stream comes to its end. -/
theorem completes_closes (h : s.Sound trust) (idle : s.Idle trust u.reads) (closes : u.Closes trust s ns)
    (separate : Separate k u s) (completes : Completes k u s es none w r) : Event.pairAll ns es = some [] := by
  obtain ⟨v, t, run, last⟩ := completes
  have start : PartAfter trust [] s u s ns := ⟨closes, h, by rwa [List.append_nil], by simp⟩
  obtain ⟨ns', pairs, after⟩ := run_closes start separate run
  have next := step_closes (k := k) after.sound after.idle after.closes
  rw [last] at next
  cases next
  exact pairs

end Stream

end Stencil
