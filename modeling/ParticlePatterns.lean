import ParticlePatterns.Data.Stored
import ParticlePatterns.Main
import ParticlePatterns.Proofs.Behavior.Emission
import ParticlePatterns.Proofs.Behavior.Slicing
import ParticlePatterns.Proofs.Field.Protocol
import ParticlePatterns.Proofs.Field.Tick
import ParticlePatterns.Proofs.Pattern.Instantiation
import ParticlePatterns.Proofs.Term.Acceptance
import ParticlePatterns.Proofs.Term.RoundTrip
import ParticlePatterns.Term.Data
import ParticlePatterns.Proofs.Term.Storage
import ParticlePatterns.Proofs.Behavior.Lawful
import ParticlePatterns.Proofs.Behavior.Stillness
import ParticlePatterns.Proofs.Field.Apart
import ParticlePatterns.Proofs.Field.Seeds
import ParticlePatterns.Proofs.Field.Termination
import ParticlePatterns.Proofs.Behavior.Lifespan
import ParticlePatterns.Proofs.Term.Locations
import ParticlePatterns.Proofs.Term.Printability
import ParticlePatterns.Proofs.Term.Viability
import ParticlePatterns.Proofs.Behavior.Telescoping
import ParticlePatterns.Proofs.Behavior.Flattening
import ParticlePatterns.Proofs.Behavior.Pacing
import ParticlePatterns.Proofs.Field.TickLength
import ParticlePatterns.Proofs.Behavior.Range
import ParticlePatterns.Proofs.Pattern.Blocks
import ParticlePatterns.Proofs.Pattern.Currying
import ParticlePatterns.Proofs.Pattern.Prefixes
import ParticlePatterns.Proofs.Pattern.Outline
import ParticlePatterns.Proofs.Pattern.Bounds
import ParticlePatterns.Proofs.Behavior.Multiplication
import ParticlePatterns.Proofs.Behavior.Rotation
import ParticlePatterns.Proofs.Random.Draws
import ParticlePatterns.Proofs.Random.Sources
import ParticlePatterns.Proofs.Behavior.Progress
import ParticlePatterns.Proofs.Pattern.Composition
import ParticlePatterns.Proofs.Geometry.Motion
import ParticlePatterns.Proofs.Behavior.Rigid
import ParticlePatterns.Proofs.Field.Orientation
import ParticlePatterns.Proofs.Pattern.Recursion
import ParticlePatterns.Proofs.Term.Termination
