import PatternSampler.CharSet.Runs
import PatternSampler.Main
import PatternSampler.Proofs.Program.Acceptance
import PatternSampler.Session
import PatternSampler.Proofs.Program.Budget
import PatternSampler.Proofs.Matching.Basic
import PatternSampler.Proofs.Program.Segment
import PatternSampler.Proofs.Program.Layout
import PatternSampler.Proofs.Program.Emission
import PatternSampler.Proofs.Program.Verdict
import PatternSampler.Proofs.Program.Ending
import PatternSampler.Proofs.Matching.Filling
import PatternSampler.Proofs.Matching.Language
import PatternSampler.Proofs.Outcome
import PatternSampler.Proofs.CharSet.Counting
import PatternSampler.Proofs.Reading.Regular
import PatternSampler.Proofs.Reading.Draft
import PatternSampler.Proofs.Reading.Pattern
import PatternSampler.Proofs.Reading.Finish
import PatternSampler.Proofs.Generation.Guarantee
import PatternSampler.Proofs.Generation.Offer
import PatternSampler.Proofs.Generation.Simulation
import PatternSampler.Proofs.Invalidation.Path
import PatternSampler.Proofs.Generation.Scope
import PatternSampler.Proofs.Generation.Agreement
import PatternSampler.Proofs.Generation.Recall
import PatternSampler.Proofs.Generation.Draws
import PatternSampler.Proofs.Generation.Samples
import PatternSampler.Proofs.Generation.Range
import PatternSampler.Proofs.Generation.Mutants
import PatternSampler.Proofs.Generation.Rigid
import PatternSampler.Proofs.Session
import PatternSampler.Proofs.Reading.Phrase
import PatternSampler.Proofs.Reading.Meaning
import PatternSampler.Proofs.Reading.Extent
import PatternSampler.Proofs.Reading.Token
import PatternSampler.Proofs.Reading.Framing
import PatternSampler.Proofs.Reading.Outline
import PatternSampler.Proofs.Composition
import PatternSampler.Proofs.Reading.Bracket
import PatternSampler.Proofs.Tree.Skeleton
import PatternSampler.Proofs.Reading.Account
import PatternSampler.Proofs.Program.Renaming
import PatternSampler.Proofs.Program.Merging
import PatternSampler.Proofs.Reading.Lexeme
import PatternSampler.Proofs.Reading.Building
import PatternSampler.Proofs.Reading.Markers
import PatternSampler.Proofs.Reading.Replacement
import PatternSampler.Proofs.Reading.Unmarking
import PatternSampler.Proofs.Unmarked
import PatternSampler.Proofs.Reading.Call
import PatternSampler.Proofs.Reading.Within
import PatternSampler.Proofs.Reading.Marking
import PatternSampler.Proofs.Reading.Groups
import PatternSampler.Proofs.Postorder
import PatternSampler.Proofs.Reading.Position
import PatternSampler.Proofs.Reading.Numbering
import PatternSampler.Proofs.Program.Slots
import PatternSampler.Proofs.Captures
import PatternSampler.Proofs.References
import PatternSampler.Proofs.Escaped
import PatternSampler.Proofs.Generation.Failure
import PatternSampler.Proofs.Program.Backtracking
import PatternSampler.Proofs.Generation.Leaving
import PatternSampler.Proofs.CharSet.Account
import PatternSampler.Proofs.CharSet.Drawing
import PatternSampler.Proofs.SingleCharacter
import PatternSampler.Proofs.Reading.Braces
import PatternSampler.Proofs.Program.InRange
import PatternSampler.Proofs.Reading.Safety
import PatternSampler.Proofs.Macros
import PatternSampler.Proofs.Requests
import PatternSampler.Proofs.Invalidation.Ancestors
import PatternSampler.Proofs.Generation.Counts
