import ExampleOverlay.Main
import ExampleOverlay.Proofs.Chain.Linked
import ExampleOverlay.Proofs.Chain.Walk
import ExampleOverlay.Proofs.Chain.Splice
import ExampleOverlay.Proofs.Chain.Arranged
import ExampleOverlay.Proofs.Chain.Stored
import ExampleOverlay.Proofs.Chain.Moves
import ExampleOverlay.Proofs.Chain.Trail
import ExampleOverlay.Proofs.Chain.Diagnosis
import ExampleOverlay.Proofs.Chain.Frugal
import ExampleOverlay.Proofs.Store.Lists
import ExampleOverlay.Proofs.Store.Rows
import ExampleOverlay.Proofs.Runs.Editing
import ExampleOverlay.Proofs.Runs.Integrity
import ExampleOverlay.Proofs.Runs.Calm
import ExampleOverlay.Proofs.Runs.Counterparts
import ExampleOverlay.Proofs.Runs.Pristine
import ExampleOverlay.Proofs.Crowds.Keeps
import ExampleOverlay.Proofs.Crowds.Edits
import ExampleOverlay.Proofs.Crowds.Crowd
import ExampleOverlay.Proofs.Crowds.Calls
import ExampleOverlay.Proofs.Crowds.Serial
import ExampleOverlay.Proofs.Crowds.Customized
import ExampleOverlay.Proofs.Runs.CatchUp
import ExampleOverlay.Proofs.Runs.Anchored
import ExampleOverlay.Proofs.Races.Cascades
import ExampleOverlay.Proofs.Races.Deletions
import ExampleOverlay.Proofs.Races.Serial
import ExampleOverlay.Proofs.Store.History
import ExampleOverlay.Proofs.Store.Commits
import ExampleOverlay.Proofs.Races.Attempts
import ExampleOverlay.Proofs.Runs.Requests
import ExampleOverlay.Proofs.Crowds.Twins
import ExampleOverlay.Proofs.Runs.Kinds
import ExampleOverlay.Proofs.Crowds.Footprint
import ExampleOverlay.Proofs.Runs.Vectors
import ExampleOverlay.Proofs.Runs.Faultless
import ExampleOverlay.Proofs.Overlays.Shown
import ExampleOverlay.Proofs.Overlays.Reading
import ExampleOverlay.Proofs.Overlays.Siblings
import ExampleOverlay.Proofs.Overlays.Customizing
import ExampleOverlay.Proofs.Crowds.NewRows
import ExampleOverlay.Proofs.Crowds.Apart
import ExampleOverlay.Proofs.Effects.Carrying
import ExampleOverlay.Proofs.Effects.Updates
import ExampleOverlay.Proofs.Effects.Deletions
import ExampleOverlay.Proofs.Effects.Resets
import ExampleOverlay.Proofs.Effects.Moves
import ExampleOverlay.Proofs.Store.Independence
import ExampleOverlay.Proofs.Codecs.Radix
import ExampleOverlay.Proofs.Codecs.Idents
import ExampleOverlay.Proofs.Codecs.Records
import ExampleOverlay.Proofs.Codecs.Documents
import ExampleOverlay.Proofs.Codecs.Settings
